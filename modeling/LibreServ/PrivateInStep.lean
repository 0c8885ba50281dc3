import LibreServ.PrivateItems

/-! Private rows in step with the disk: the path of a row leads to the entry that carries its id, an entry under
an id has one row, and no two entries of a folder have one real name. A new entry, a branch that moves on disk and
among the rows, and a branch taken out of both leave the two in step. -/

namespace LibreServ.Files

open FileTree List Option Table Layout

variable {p d q : Path} {item : Item} {seg : Text}

/-! ### Names -/

section Names

variable {name rest : Text}

theorem extractPrefix_eq_some {p : Text} (h : extractPrefix name = some p) :
    markerLead.isPrefixOf name = true ∧ isUuid ((name.drop 6).take 36) = true ∧ p = name.take 42 := by
  unfold extractPrefix at h
  split at h
  · rename_i hc
    rw [Bool.and_eq_true] at hc
    exact ⟨hc.1, hc.2, (some.inj h).symm⟩
  · cases h

theorem length_of_isLunaName (h : isLunaName name = true) : 42 ≤ name.length := by
  obtain ⟨p, hp⟩ := isSome_iff_exists.mp h
  obtain ⟨-, huuid, -⟩ := extractPrefix_eq_some hp
  have hlen : ((name.drop 6).take 36).length = 36 := by
    rw [isUuid, Bool.and_eq_true, decide_eq_true_eq] at huuid
    exact huuid.1
  rw [length_take, length_drop] at hlen
  omega

/-- Whatever follows, the name stays one of Luna's. -/
theorem isLunaName_append (h : isLunaName name = true) (rest : Text) : isLunaName (name ++ rest) = true := by
  have hlen := length_of_isLunaName h
  obtain ⟨p, hp⟩ := isSome_iff_exists.mp h
  obtain ⟨hlead, huuid, -⟩ := extractPrefix_eq_some hp
  have hlead' : markerLead.isPrefixOf (name ++ rest) = true :=
    isPrefixOf_iff_prefix.mpr ((List.isPrefixOf_iff_prefix.mp hlead).trans (prefix_append name rest))
  have huuid' : ((name ++ rest).drop 6).take 36 = (name.drop 6).take 36 := by
    rw [drop_append_of_le_length (by omega), take_append_of_le_length]
    rw [length_drop]
    omega
  rw [isLunaName, extractPrefix, hlead', huuid', huuid]
  rfl

variable (l : Layout)

theorem Layout.isLunaName_pfx (rest : Text) : isLunaName (l.pfx ++ rest) = true :=
  isLunaName_append (by rw [isLunaName, l.valid]; rfl) rest

theorem Layout.isLunaName_diskName (id : Text) : isLunaName (l.diskName id) = true := by
  rw [diskName, lead, append_assoc]
  exact l.isLunaName_pfx _

variable {l}

theorem Layout.diskName_inj {id id' : Text} (h : l.diskName id = l.diskName id') : id = id' :=
  append_cancel_left h

theorem Layout.isDiskName_iff :
    l.isDiskName seg = true ↔ ∃ id : ItemId, seg = l.diskName id := by
  rw [isDiskName, Bool.and_eq_true, isPrefixOf_iff_prefix]
  constructor
  · rintro ⟨⟨id, rfl⟩, hid⟩
    rw [drop_left] at hid
    exact ⟨⟨id, hid⟩, rfl⟩
  · rintro ⟨id, rfl⟩
    refine ⟨prefix_append _ _, ?_⟩
    rw [diskName, drop_left]
    exact id.2

theorem Layout.isDiskName_diskName (id : ItemId) : l.isDiskName (l.diskName id) = true :=
  isDiskName_iff.mpr ⟨id, rfl⟩

theorem Layout.isDiskName_of_not_luna (h : isLunaName seg = false) : l.isDiskName seg = false := by
  rw [← Bool.not_eq_true]
  intro hdisk
  obtain ⟨id, rfl⟩ := isDiskName_iff.mp hdisk
  rw [l.isLunaName_diskName] at h
  cases h

/-- An id has letters and digits only. -/
theorem not_mem_of_isDiskId {id : Text} (h : isDiskId id = true) (ch : Char)
    (hch : (('a' ≤ ch && ch ≤ 'z') || ('2' ≤ ch && ch ≤ '7')) = false) : ch ∉ id := by
  intro hmem
  rw [isDiskId, Bool.and_eq_true, List.all_eq_true] at h
  have := h.2 ch hmem
  rw [hch] at this
  cases this

theorem Layout.isDiskName_pfx (h : l.isDiskName (l.pfx ++ rest) = true) : ∃ id : ItemId, rest = '-' :: id.1 := by
  obtain ⟨id, hid⟩ := isDiskName_iff.mp h
  rw [diskName, lead, append_assoc] at hid
  exact ⟨id, append_cancel_left hid⟩

theorem Layout.isDiskName_trashName : l.isDiskName l.trashName = false := by
  rw [← Bool.not_eq_true]
  intro h
  obtain ⟨id, hid⟩ := isDiskName_pfx h
  obtain ⟨-, hid⟩ := cons.inj hid
  have hlen := id.2
  rw [← hid] at hlen
  exact absurd hlen (by decide)

theorem Layout.isDiskName_formDirName (formHash : Text → Text) (rest : Text) :
    l.isDiskName (formDirName formHash l name ++ rest) = false := by
  rw [← Bool.not_eq_true]
  intro h
  rw [formDirName, append_assoc, append_assoc] at h
  obtain ⟨id, hid⟩ := isDiskName_pfx h
  have hsplit : "-form-".toList = '-' :: "form-".toList := by decide
  apply not_mem_of_isDiskId id.2 '-' (by decide)
  rw [← (cons.inj hid).2]
  exact mem_append_left _ (by decide)

/-- An id has no dot and is too long to lie inside the ending. -/
theorem Layout.isDiskName_responses : l.isDiskName (name ++ ".responses".toList) = false := by
  rw [← Bool.not_eq_true]
  intro h
  obtain ⟨id, hid⟩ := isDiskName_iff.mp h
  have hlen : id.1.length = 26 := by
    have := id.2
    rw [isDiskId, Bool.and_eq_true, decide_eq_true_eq] at this
    exact this.1
  have hends : ".responses".toList <:+ l.diskName id := by
    rw [← hid]
    exact suffix_append _ _
  have hsuf : ".responses".toList <:+ id.1 := by
    apply suffix_of_suffix_length_le hends (suffix_append _ _)
    rw [hlen]
    decide
  exact not_mem_of_isDiskId id.2 '.' (by decide) (hsuf.subset (by decide))

end Names

/-! ### Spellings -/

theorem folded_segments (path : Text) : Folded (segments path) := by
  intro seg hseg
  exact folded_filter path seg (mem_reverse.mp hseg)

theorem Folded.of_suffix (h : Folded q) (hp : p <:+ q) : Folded p := fun seg hseg => h seg (hp.subset hseg)

/-- A path that was folded is found again in its spelling. -/
theorem segments_spelled (h : Folded p) : segments (spelled p) = p := by
  by_cases hnil : p = []
  · rw [hnil]
    rfl
  · have hfolded : Folded p.reverse := fun seg hseg => h seg (mem_reverse.mp hseg)
    have hsplit : split (join p.reverse) = p.reverse :=
      splitOn_intercalate '/' (fun seg hseg => (hfolded seg hseg).2) (by simpa using hnil)
    rw [segments, spelled, hsplit, filter_eq_self.mpr fun seg hseg => (hfolded seg hseg).1, reverse_reverse]

theorem spelled_segments (path : Text) : spelled (segments path) = canonical path := by
  rw [spelled, segments, reverse_reverse, canonical]

/-! ### Paths of rows -/

variable {l : Layout} {e : Entry (List UInt8)}

/-- A path that names no entry by its name on disk. -/
def Layout.Unsealed (l : Layout) (p : Path) : Prop := ∀ seg ∈ p, l.isDiskName seg = false

/-- A path a private item may have: no segment is Luna's own, but for the trash it lies in. -/
def Layout.Proper (l : Layout) (p : Path) : Prop :=
  p ≠ [] ∧ ∃ q r, p = q ++ r ∧ (∀ seg ∈ q, isLunaName seg = false) ∧ (r = [] ∨ (r = [l.trashName] ∧ q ≠ []))

theorem Layout.Proper.unsealed (h : l.Proper p) : l.Unsealed p := by
  obtain ⟨-, q, r, rfl, hq, hr⟩ := h
  intro seg hseg
  rcases mem_append.mp hseg with hseg | hseg
  · exact isDiskName_of_not_luna (hq seg hseg)
  · rcases hr with rfl | ⟨rfl, -⟩
    · cases hseg
    · rw [mem_singleton.mp hseg]
      exact isDiskName_trashName

/-- The name of an item is never Luna's. -/
theorem Layout.Proper.head {n : Text} (h : l.Proper (n :: d)) : isLunaName n = false := by
  obtain ⟨-, q, r, hp, hq, hr⟩ := h
  cases q with
  | nil =>
    rcases hr with rfl | ⟨-, hne⟩
    · cases hp
    · exact absurd rfl hne
  | cons n' q =>
    rw [(cons.inj hp).1]
    exact hq n' mem_cons_self

theorem Layout.unsealed_nil : l.Unsealed [] := by
  intro seg hseg
  cases hseg

theorem Layout.Unsealed.tail {n : Text} (h : l.Unsealed (n :: d)) : l.Unsealed d :=
  fun seg hseg => h seg (mem_cons_of_mem n hseg)

theorem Layout.Unsealed.of_suffix (h : l.Unsealed p) (hq : q <:+ p) : l.Unsealed q :=
  fun seg hseg => h seg (hq.subset hseg)

theorem Layout.Unsealed.cons {n : Text} (hn : l.isDiskName n = false) (hd : l.Unsealed d) :
    l.Unsealed (n :: d) := by
  intro seg hseg
  rcases mem_cons.mp hseg with rfl | hseg
  · exact hn
  · exact hd seg hseg

/-- No item lies in a folder of Luna's, but for the trash. -/
theorem Layout.Proper.not_beneath {a : Text} (h : l.Proper p) (ha : isLunaName a = true)
    (hne : a ≠ l.trashName) : ¬ a :: d <:+ p := by
  intro hsuf
  obtain ⟨-, q, r, rfl, hq, hr⟩ := h
  rcases mem_append.mp (hsuf.subset mem_cons_self) with hmem | hmem
  · rw [hq a hmem] at ha
    cases ha
  · rcases hr with rfl | ⟨rfl, -⟩
    · cases hmem
    · exact hne (mem_singleton.mp hmem)

/-- Beneath a path an item's further segments are never Luna's. -/
theorem Layout.Proper.beneath (h : l.Proper (q ++ p)) (hp : p ≠ []) :
    ∀ seg ∈ q, isLunaName seg = false := by
  obtain ⟨-, q', r, heq, hq', hr⟩ := h
  rcases hr with rfl | ⟨rfl, -⟩
  · rw [append_nil] at heq
    subst heq
    exact fun seg hseg => hq' seg (mem_append_left p hseg)
  · obtain ⟨p', last, rfl⟩ := eq_nil_or_concat p |>.resolve_left hp
    rw [concat_eq_append, ← append_assoc] at heq
    obtain ⟨hq, -⟩ := append_inj' heq rfl
    subst hq
    exact fun seg hseg => hq' seg (mem_append_left p' hseg)

theorem Layout.Proper.append (h : l.Proper p) (hq : ∀ seg ∈ q, isLunaName seg = false) :
    l.Proper (q ++ p) := by
  obtain ⟨hne, q', r, rfl, hq', hr⟩ := h
  refine ⟨by simp [hne], q ++ q', r, (append_assoc ..).symm, fun seg hseg => ?_, ?_⟩
  · exact (mem_append.mp hseg).elim (hq seg) (hq' seg)
  · exact hr.imp id fun ⟨hr, hq0⟩ => ⟨hr, by simp [hq0]⟩

/-- One segment renamed. -/
theorem Layout.Proper.renamed {n m : Text} (h : l.Proper (q ++ n :: d)) (hm : isLunaName m = false) :
    l.Proper (m :: d) := by
  refine ⟨cons_ne_nil m d, ?_⟩
  obtain ⟨-, q', r, heq, hq', hr⟩ := h
  rcases hr with rfl | ⟨rfl, -⟩
  · rw [append_nil] at heq
    subst heq
    refine ⟨m :: d, [], (append_nil _).symm, fun seg hseg => ?_, .inl rfl⟩
    rcases mem_cons.mp hseg with rfl | hseg
    · exact hm
    · exact hq' seg (mem_append_right q (mem_cons_of_mem n hseg))
  · rcases eq_nil_or_concat d with rfl | ⟨d', last, rfl⟩
    · exact ⟨[m], [], rfl, by simpa using hm, .inl rfl⟩
    rw [concat_eq_append, ← cons_append, ← append_assoc] at heq
    obtain ⟨hq, hlast⟩ := append_inj' heq rfl
    refine ⟨m :: d', [l.trashName], ?_, fun seg hseg => ?_, .inr ⟨rfl, cons_ne_nil m d'⟩⟩
    · rw [concat_eq_append, hlast, cons_append]
    · rcases mem_cons.mp hseg with rfl | hseg
      · exact hm
      · exact hq' seg (hq ▸ mem_append_right q (mem_cons_of_mem n hseg))

/-! ### In step -/

namespace Drive

/-- The name an entry of the disk really has. -/
def realName (s : Drive) (seg : Text) : Text := ((s.rowOf seg).bind fun r => r.1.head?).getD seg

/-- Rows and disk agree: the path of a row leads to an entry that carries its id, an entry under an id has one
row and no other, and in a folder no two entries have one real name. -/
structure InStep (s : Drive) : Prop where
  row_leads : ∀ p item, s.items.get? p = some item →
    (s.diskIn p).head? = some (s.layout.diskName item.id) ∧ ∃ e, s.disk.get? (s.diskIn p) = some e
  entry_has_row : ∀ seg d e, s.disk.get? (seg :: d) = some e → s.layout.isDiskName seg = true →
    ∃ p item, s.items.get? p = some item ∧ s.diskIn p = seg :: d ∧
      ∀ p' item', s.items.get? p' = some item' → s.layout.diskName item'.id = seg → p' = p
  names_differ : ∀ a b d e e', s.disk.get? (a :: d) = some e → s.disk.get? (b :: d) = some e' →
    s.realName a = s.realName b → a = b

/-- Every entry lies in a folder, and rows have paths the calls give them. -/
structure WellFormed (s : Drive) : Prop where
  grown : Grown s.disk
  proper : ∀ p item, s.items.get? p = some item → s.layout.Proper p

/-- The same, as the proofs use it. -/
structure Tidy (s : Drive) : Prop extends WellFormed s where
  leads : ∀ p item, s.items.get? p = some item → ∃ e, s.disk.get? (s.diskIn p) = some e
  rowed : ∀ seg d e, s.disk.get? (seg :: d) = some e → s.layout.isDiskName seg = true →
    ∃ p item, s.items.get? p = some item ∧ s.diskIn p = seg :: d
  ids : ∀ p p' item item', s.items.get? p = some item → s.items.get? p' = some item' → item.id = item'.id → p = p'
  clear : ∀ n d item, s.items.get? (n :: d) = some item → s.disk.get? (n :: s.diskIn d) = none

variable {s s' : Drive}

/-! ### Translation -/

theorem diskLeaf_none (h : s.items.get? p = none) : s.diskLeaf p = none := by
  rw [diskLeaf, h]
  rfl

theorem diskLeaf_some (h : s.items.get? p = some item) :
    s.diskLeaf p = some (s.layout.diskName item.id) := by
  rw [diskLeaf, h]
  rfl

theorem isSome_diskLeaf : (s.diskLeaf p).isSome = (s.items.get? p).isSome := isSome_map

theorem diskIn_cons_none {n : Text} (h : s.items.get? (n :: d) = none) :
    s.diskIn (n :: d) = n :: s.diskIn d := by
  rw [diskIn, diskLeaf_none h]
  rfl

theorem diskIn_cons_some {n : Text} (h : s.items.get? (n :: d) = some item) :
    s.diskIn (n :: d) = s.layout.diskName item.id :: s.diskIn d := by
  rw [diskIn, diskLeaf_some h]
  rfl

@[simp] theorem length_diskIn (p : Path) : (s.diskIn p).length = p.length := by
  induction p with
  | nil => rfl
  | cons n d ih => rw [diskIn, length_cons, length_cons, ih]

theorem diskIn_append (q p : Path) : ∃ r, r.length = q.length ∧ s.diskIn (q ++ p) = r ++ s.diskIn p := by
  induction q with
  | nil => exact ⟨[], rfl, rfl⟩
  | cons n q ih =>
    obtain ⟨r, hlen, hr⟩ := ih
    refine ⟨(s.diskLeaf (n :: q ++ p)).getD n :: r, by rw [length_cons, length_cons, hlen], ?_⟩
    show (s.diskLeaf (n :: (q ++ p))).getD n :: s.diskIn (q ++ p) = _
    rw [hr]
    rfl

theorem diskIn_suffix (h : p <:+ q) : s.diskIn p <:+ s.diskIn q := by
  obtain ⟨r, rfl⟩ := h
  obtain ⟨r', -, hr'⟩ := s.diskIn_append r p
  exact ⟨r', hr'.symm⟩

/-- The translation reads the rows at and above a path only. -/
theorem diskIn_congr (s s' : Drive) (hl : s'.layout = s.layout) (h : ∀ q, q <:+ p → s'.items.get? q = s.items.get? q) :
    s'.diskIn p = s.diskIn p := by
  induction p with
  | nil => rfl
  | cons n d ih =>
    have hd := ih fun q hq => h q (hq.trans (suffix_cons n d))
    rw [diskIn, diskIn, hd, diskLeaf, diskLeaf, h _ (suffix_refl _), hl]

theorem mem_of_rowOf {r : Path × Item} (h : s.rowOf seg = some r) :
    s.items.get? r.1 = some r.2 ∧ s.layout.diskName r.2.id = seg := by
  refine ⟨mem_rows.mp (mem_of_find?_eq_some h), ?_⟩
  have := find?_some h
  rwa [decide_eq_true_eq] at this

theorem rowOf_eq_none (h : s.rowOf seg = none)
    (hp : s.items.get? p = some item) : s.layout.diskName item.id ≠ seg := by
  have := find?_eq_none.mp h _ (mem_rows.mpr hp)
  rwa [decide_eq_true_eq] at this

theorem rowOf_of_not_diskName (h : s.layout.isDiskName seg = false) : s.rowOf seg = none := by
  cases hrow : s.rowOf seg with
  | none => rfl
  | some r =>
    have hname := (mem_of_rowOf hrow).2
    rw [← hname, isDiskName_diskName] at h
    cases h

/-- No two rows have one id. -/
def IdsDiffer (s : Drive) : Prop :=
  ∀ p p' item item', s.items.get? p = some item → s.items.get? p' = some item' → item.id = item'.id → p = p'

namespace IdsDiffer

theorem rowOf (h : IdsDiffer s) (hp : s.items.get? p = some item) :
    s.rowOf (s.layout.diskName item.id) = some (p, item) := by
  cases hrow : s.rowOf (s.layout.diskName item.id) with
  | none => exact absurd rfl (rowOf_eq_none hrow hp)
  | some r =>
    obtain ⟨hget, hname⟩ := mem_of_rowOf hrow
    have hid : r.2.id = item.id := Subtype.ext (diskName_inj hname)
    have hpath := h _ _ _ _ hget hp hid
    rw [hpath, hp] at hget
    exact congrArg some (Prod.ext hpath (some.inj hget).symm)

/-- Translated and back. -/
theorem logicalIn_diskIn (h : IdsDiffer s) (hp : s.layout.Unsealed p) : s.logicalIn (s.diskIn p) = p := by
  induction p with
  | nil => rfl
  | cons n d ih =>
    cases hget : s.items.get? (n :: d) with
    | none =>
      rw [diskIn_cons_none hget, logicalIn, rowOf_of_not_diskName (hp n mem_cons_self), ih hp.tail]
    | some item => rw [diskIn_cons_some hget, logicalIn, h.rowOf hget]

end IdsDiffer

namespace Tidy

section

variable (h : Tidy s)

include h

theorem unsealed (hp : s.items.get? p = some item) : s.layout.Unsealed p :=
  (h.proper p item hp).unsealed

theorem rowOf (hp : s.items.get? p = some item) : s.rowOf (s.layout.diskName item.id) = some (p, item) :=
  IdsDiffer.rowOf h.ids hp

variable (hp : s.layout.Unsealed p)

include hp

theorem logicalIn_diskIn : s.logicalIn (s.diskIn p) = p :=
  IdsDiffer.logicalIn_diskIn h.ids hp

theorem diskIn_inj (hq : s.layout.Unsealed q)
    (heq : s.diskIn p = s.diskIn q) : p = q := by
  rw [← h.logicalIn_diskIn hp, heq, h.logicalIn_diskIn hq]

theorem suffix_of_diskIn (hq : s.layout.Unsealed q)
    (hsuf : s.diskIn p <:+ s.diskIn q) : p <:+ q := by
  have hlen : p.length ≤ q.length := by
    have := hsuf.length_le
    rwa [length_diskIn, length_diskIn] at this
  have hsplit : q.take (q.length - p.length) ++ q.drop (q.length - p.length) = q := take_append_drop _ _
  have hdrop : q.drop (q.length - p.length) <:+ q := drop_suffix _ _
  have hsame : s.diskIn p = s.diskIn (q.drop (q.length - p.length)) := by
    have hdisk := s.diskIn_suffix hdrop
    apply (suffix_of_suffix_length_le hsuf hdisk ?_).eq_of_length ?_
    · rw [length_diskIn, length_diskIn, length_drop]
      omega
    · rw [length_diskIn, length_diskIn, length_drop]
      omega
  rw [h.diskIn_inj hp (hq.of_suffix hdrop) hsame]
  exact hdrop

end

/-! ### Looking a path up -/

/-- Every entry has a real path, and that path spells out no name on disk. -/
theorem unsealed_logicalIn (h : Tidy s) (hd : s.disk.get? d = some e) :
    s.layout.Unsealed (s.logicalIn d) := by
  induction d generalizing e with
  | nil => exact unsealed_nil
  | cons seg d ih =>
    rw [logicalIn]
    cases hrow : s.rowOf seg with
    | some r => exact h.unsealed (mem_of_rowOf hrow).1
    | none =>
      have hnot : s.layout.isDiskName seg = false := by
        rw [← Bool.not_eq_true]
        intro hname
        obtain ⟨p, item, hp, hdisk⟩ := h.rowed seg d e hd hname
        cases p with
        | nil => cases hdisk
        | cons n p =>
          rw [diskIn_cons_some hp] at hdisk
          exact rowOf_eq_none hrow hp (cons.inj hdisk).1
      refine Layout.Unsealed.cons hnot ?_
      rcases h.grown seg d e trivial hd with rfl | hdir
      · exact unsealed_nil
      · exact ih hdir

end Tidy

theorem boundaryRec_unsealed (hp : s.layout.Unsealed p) {b : Boundary} (hb : s.boundaryRec p = some b) :
    ∃ path item, b = .item path item.owner ∧ s.items.get? path = some item := by
  induction p with
  | nil => cases hb
  | cons seg d ih =>
    rw [boundaryRec] at hb
    split at hb
    · rename_i q hq
      exact ih hp.tail (hq.trans hb)
    · rw [hp seg mem_cons_self, if_neg Bool.false_ne_true] at hb
      split at hb
      · rename_i item hitem
        exact ⟨seg :: d, item, (some.inj hb).symm, hitem⟩
      · exact ih hp.tail hb

theorem boundaryRec_eq_none_of_no_rows (hp : s.layout.Unsealed p) (h : s.items.rows = []) :
    s.boundaryRec p = none := by
  cases hb : s.boundaryRec p with
  | none => rfl
  | some b =>
    obtain ⟨path, item, -, hget⟩ := boundaryRec_unsealed hp hb
    have hmem := mem_rows.mpr hget
    rw [h] at hmem
    cases hmem

theorem boundaryRec_cons_none (hseg : s.layout.isDiskName seg = false)
    (hget : s.items.get? (seg :: d) = none) : s.boundaryRec (seg :: d) = s.boundaryRec d := by
  rw [boundaryRec]
  split
  · rename_i q hq
    exact hq.symm
  · rw [hseg, if_neg Bool.false_ne_true, hget]

theorem boundaryRec_cons_some (hp : s.layout.Unsealed (seg :: d))
    (hget : s.items.get? (seg :: d) = some item) : s.boundaryRec (seg :: d) = some (.item (seg :: d) item.owner) := by
  rw [boundaryRec]
  split
  · rename_i q hq
    obtain ⟨path, item', hb, -⟩ := boundaryRec_unsealed hp.tail hq
    cases hb
  · rw [hp seg mem_cons_self, if_neg Bool.false_ne_true, hget]

theorem boundaryRec_cons_sealed (hd : s.layout.Unsealed d)
    (hseg : s.layout.isDiskName seg = true) : s.boundaryRec (seg :: d) = some (.sealedOff (seg :: d)) := by
  rw [boundaryRec]
  split
  · rename_i q hq
    obtain ⟨path, item, hb, -⟩ := boundaryRec_unsealed hd hq
    cases hb
  · rw [if_pos hseg]

theorem boundaryRec_sealed (hp : ¬ s.layout.Unsealed p) :
    ∃ seg d, seg :: d <:+ p ∧ s.layout.isDiskName seg = true ∧ s.boundaryRec p = some (.sealedOff (seg :: d)) := by
  induction p with
  | nil => exact absurd unsealed_nil hp
  | cons seg d ih =>
    by_cases hd : s.layout.Unsealed d
    · have hseg : s.layout.isDiskName seg = true := by
        by_contra hnot
        exact hp (Layout.Unsealed.cons (Bool.not_eq_true _ ▸ hnot) hd)
      exact ⟨seg, d, suffix_refl _, hseg, boundaryRec_cons_sealed hd hseg⟩
    · obtain ⟨seg', d', hsuf, hname, hb⟩ := ih hd
      refine ⟨seg', d', hsuf.trans (suffix_cons seg d), hname, ?_⟩
      rw [boundaryRec, hb]

namespace Tidy

/-- A lookup that succeeds names no entry by its name on disk. -/
theorem resolveChild_ok (h : Tidy s) {rel path : Path} (hr : s.resolveChild rel = .ok path) :
    path = s.diskIn rel ∧ s.layout.Unsealed rel ∧ (rel ≠ [] → ∃ e, s.disk.get? (s.diskIn rel) = some e) := by
  unfold resolveChild at hr
  split at hr
  · rename_i hnil
    subst hnil
    exact ⟨(Except.ok.inj hr).symm, unsealed_nil, fun hne => absurd rfl hne⟩
  split at hr
  · cases hr
  · cases hr
  · rename_i e _ he
    split at hr
    · rename_i hok
      refine ⟨(Except.ok.inj hr).symm, ?_, fun _ => ⟨e, he⟩⟩
      by_contra hsealed
      obtain ⟨seg, d, hsuf, hname, hb⟩ := boundaryRec_sealed hsealed
      have hnone : s.items.get? (seg :: d) = none := by
        cases hget : s.items.get? (seg :: d) with
        | none => rfl
        | some item =>
          have := h.unsealed hget seg mem_cons_self
          rw [hname] at this
          cases this
      -- The entry is there, so it has a row, and the row's path is another one.
      have hdisk : s.diskIn (seg :: d) <:+ s.diskIn rel := diskIn_suffix hsuf
      rw [diskIn_cons_none hnone] at hdisk
      obtain ⟨e', he'⟩ := h.grown.taken_above he hdisk (cons_ne_nil _ _)
      obtain ⟨p, item, hp, -⟩ := h.rowed seg _ e' he' hname
      have hrows : s.items.rows ≠ [] := by
        intro hnil
        have hmem := mem_rows.mpr hp
        rw [hnil] at hmem
        cases hmem
      rw [resolvedOk, decide_eq_false hrows, Bool.false_or, decide_eq_true_eq, boundaryFor, boundaryFor,
        if_neg hrows, if_neg hrows, hb] at hok
      cases hb' : s.boundaryRec (s.logicalIn (s.diskIn rel)) with
      | none =>
        rw [hb'] at hok
        cases hok
      | some b =>
        obtain ⟨path', item', rfl, hpath'⟩ := boundaryRec_unsealed (h.unsealed_logicalIn he) hb'
        rw [hb'] at hok
        have hsame : seg :: d = path' := some.inj hok
        have := h.unsealed hpath' seg (hsame ▸ mem_cons_self)
        rw [hname] at this
        cases this
    · cases hr

/-- Where a lookup fails, nothing stands but perhaps a link. -/
theorem free_of_resolveChild (h : Tidy s) {rel : Path} (hne : rel ≠ []) (hrel : s.layout.Unsealed rel)
    (hr : (s.resolveChild rel).isOk = false) (hlink : s.disk.get? (s.diskIn rel) ≠ some .link) :
    s.disk.get? (s.diskIn rel) = none := by
  have hsame : s.resolvedOk rel (s.diskIn rel) = true := by
    rw [resolvedOk, h.logicalIn_diskIn hrel, decide_eq_true (Eq.refl _), Bool.or_true]
  unfold resolveChild at hr
  rw [if_neg hne, if_pos hsame] at hr
  cases hget : s.disk.get? (s.diskIn rel) with
  | none => rfl
  | some e =>
    rw [hget] at hr hlink
    cases e with
    | link => exact absurd rfl hlink
    | file f | dir => cases hr

end Tidy

/-! ### What a call changes -/

section

variable (h : Tidy s)

include h

/-- Only what the tables hold matters. -/
theorem Tidy.congr (hl : s'.layout = s.layout) (hd : ∀ p, s'.disk.get? p = s.disk.get? p)
    (hi : ∀ p, s'.items.get? p = s.items.get? p) : Tidy s' := by
  have hin : ∀ p, s'.diskIn p = s.diskIn p := fun p => diskIn_congr s s' hl fun q _ => hi q
  refine ⟨⟨fun n d e _ he => ?_, fun p item hp => ?_⟩, fun p item hp => ?_, fun seg d e he hseg => ?_,
    fun p p' item item' hp hp' => ?_, fun n d item hp => ?_⟩
  · rw [hd] at he ⊢
    exact h.grown n d e trivial he
  · rw [hi] at hp
    exact hl ▸ h.proper p item hp
  · rw [hi] at hp
    rw [hin, hd]
    exact h.leads p item hp
  · rw [hd] at he
    obtain ⟨p, item, hp, hdisk⟩ := h.rowed seg d e he (hl ▸ hseg)
    exact ⟨p, item, (hi p).trans hp, (hin p).trans hdisk⟩
  · rw [hi] at hp hp'
    exact h.ids p p' item item' hp hp'
  · rw [hi] at hp
    rw [hin, hd]
    exact h.clear n d item hp

/-- No row lies at or beneath a path at which nothing stands. -/
theorem Tidy.no_row_beneath {n : Text} (hrow : s.items.get? (n :: d) = none)
    (hfree : s.disk.get? (n :: s.diskIn d) = none) (hp : s.items.get? p = some item) :
    ¬ n :: d <:+ p := by
  intro hsuf
  obtain ⟨e, he⟩ := h.leads p item hp
  have hdisk := diskIn_suffix (s := s) hsuf
  rw [diskIn_cons_none hrow] at hdisk
  obtain ⟨e', he'⟩ := h.grown.taken_above he hdisk (cons_ne_nil _ _)
  rw [hfree] at he'
  cases he'

theorem Tidy.put_plain {n : Text} (hd : s.layout.Unsealed d)
    (hn : s.layout.isDiskName n = false) (hdir : s.diskIn d = [] ∨ s.disk.get? (s.diskIn d) = some .dir)
    (hrow : s.items.get? (n :: d) = none) (hfree : s.disk.get? (n :: s.diskIn d) = none) (e : Entry (List UInt8)) :
    Tidy { s with disk := s.disk.put (n :: s.diskIn d) e } := by
  have hin : ∀ p, Drive.diskIn { s with disk := s.disk.put (n :: s.diskIn d) e } p = s.diskIn p :=
    fun p => diskIn_congr s { s with disk := s.disk.put (n :: s.diskIn d) e } rfl fun _ _ => rfl
  refine ⟨⟨h.grown.put hdir hfree e, h.proper⟩, fun p item hp => ?_, fun seg d' e' he' hseg => ?_, h.ids,
    fun n' d' item hp => ?_⟩
  · obtain ⟨e', he'⟩ := h.leads p item hp
    have hne : s.diskIn p ≠ n :: s.diskIn d := by
      intro heq
      rw [heq, hfree] at he'
      cases he'
    exact ⟨e', by rw [hin, get?_put_of_ne _ _ hne, he']⟩
  · by_cases heq : seg :: d' = n :: s.diskIn d
    · rw [(cons.inj heq).1] at hseg
      have hseg' : s.layout.isDiskName n = true := hseg
      rw [hn] at hseg'
      cases hseg'
    · rw [get?_put_of_ne _ _ heq] at he'
      obtain ⟨p, item, hp, hdisk⟩ := h.rowed seg d' e' he' hseg
      exact ⟨p, item, hp, (hin p).trans hdisk⟩
  · rw [hin]
    have hne : n' :: s.diskIn d' ≠ n :: s.diskIn d := by
      intro heq
      obtain ⟨rfl, hdd⟩ := cons.inj heq
      have hsame := h.diskIn_inj (h.unsealed hp).tail hd hdd
      subst hsame
      rw [show s.items.get? (n' :: d') = some item from hp] at hrow
      cases hrow
    rw [get?_put_of_ne _ _ hne]
    exact h.clear n' d' item hp

theorem Tidy.put_private {n owner : Text} {id : ItemId} (hproper : s.layout.Proper (n :: d))
    (hdir : s.diskIn d = [] ∨ s.disk.get? (s.diskIn d) = some .dir) (hrow : s.items.get? (n :: d) = none)
    (hfree : s.disk.get? (n :: s.diskIn d) = none) (hid : ∀ p item, s.items.get? p = some item → item.id ≠ id)
    (hnew : s.disk.get? (s.layout.diskName id :: s.diskIn d) = none) (e : Entry (List UInt8)) :
    Tidy { s with
      disk := s.disk.put (s.layout.diskName id :: s.diskIn d) e
      items := s.items.put (n :: d) ⟨id, owner⟩ } := by
  set s' : Drive := { s with
    disk := s.disk.put (s.layout.diskName id :: s.diskIn d) e
    items := s.items.put (n :: d) ⟨id, owner⟩ } with hs'
  have hold : ∀ p, ¬ n :: d <:+ p → s'.diskIn p = s.diskIn p := by
    intro p hp
    refine diskIn_congr s s' rfl fun q hq => get?_put_of_ne _ _ ?_
    rintro rfl
    exact hp hq
  have hself : s'.diskIn d = s.diskIn d := by
    apply hold
    intro hsuf
    have := hsuf.length_le
    rw [length_cons] at this
    omega
  have hrows : ∀ p item, s.items.get? p = some item → s'.diskIn p = s.diskIn p :=
    fun p item hp => hold p (h.no_row_beneath hrow hfree hp)
  have hentry : ∀ x, s.disk.get? x ≠ none → s'.disk.get? x = s.disk.get? x := by
    intro x hx
    refine get?_put_of_ne _ _ ?_
    rintro rfl
    exact hx hnew
  have hnewRow : s'.items.get? (n :: d) = some ⟨id, owner⟩ := get?_put_self _ _ _
  have hcases : ∀ p item, s'.items.get? p = some item →
      p = n :: d ∧ item = ⟨id, owner⟩ ∨ p ≠ n :: d ∧ s.items.get? p = some item := by
    intro p item hp
    by_cases hpn : p = n :: d
    · rw [hpn, hnewRow] at hp
      exact .inl ⟨hpn, (some.inj hp).symm⟩
    · exact .inr ⟨hpn, (get?_put_of_ne _ _ hpn).symm.trans hp⟩
  refine ⟨⟨h.grown.put hdir hnew e, fun p item hp => ?_⟩, fun p item hp => ?_, fun seg d' e' he' hseg => ?_,
    fun p p' item item' hp hp' hidd => ?_, fun n' d' item hp => ?_⟩
  · rcases hcases p item hp with ⟨rfl, -⟩ | ⟨-, hp⟩
    · exact hproper
    · exact h.proper p item hp
  · rcases hcases p item hp with ⟨rfl, -⟩ | ⟨-, hp⟩
    · rw [diskIn_cons_some hnewRow, hself]
      exact ⟨e, get?_put_self _ _ _⟩
    · obtain ⟨e', he'⟩ := h.leads p item hp
      exact ⟨e', by rw [hrows p item hp, hentry _ (by rw [he']; exact some_ne_none _), he']⟩
  · by_cases heq : seg :: d' = s.layout.diskName id :: s.diskIn d
    · refine ⟨n :: d, ⟨id, owner⟩, hnewRow, ?_⟩
      rw [heq, diskIn_cons_some hnewRow, hself]
    rw [get?_put_of_ne _ _ heq] at he'
    obtain ⟨p, item, hp, hdisk⟩ := h.rowed seg d' e' he' hseg
    have hpn : p ≠ n :: d := by
      rintro rfl
      rw [hrow] at hp
      cases hp
    exact ⟨p, item, (get?_put_of_ne _ _ hpn).trans hp, (hrows p item hp).trans hdisk⟩
  · rcases hcases p item hp with ⟨rfl, rfl⟩ | ⟨-, hp⟩
    · rcases hcases p' item' hp' with ⟨rfl, -⟩ | ⟨-, hp'⟩
      · rfl
      · exact absurd hidd.symm (hid p' item' hp')
    · rcases hcases p' item' hp' with ⟨rfl, rfl⟩ | ⟨-, hp'⟩
      · exact absurd hidd (hid p item hp)
      · exact h.ids p p' item item' hp hp' hidd
  · have hnames : ∀ d'', isLunaName n' = false → n' :: d'' ≠ s.layout.diskName id :: s.diskIn d := by
      intro d'' hluna heq
      rw [(cons.inj heq).1, s.layout.isLunaName_diskName] at hluna
      cases hluna
    rcases hcases _ item hp with ⟨heq, -⟩ | ⟨-, hp⟩
    · obtain ⟨rfl, rfl⟩ := cons.inj heq
      rw [hself, get?_put_of_ne _ _ (hnames _ hproper.head)]
      exact hfree
    · have hout : s'.diskIn d' = s.diskIn d' :=
        hold d' fun hsuf => h.no_row_beneath hrow hfree hp (hsuf.trans (suffix_cons n' d'))
      rw [hout, get?_put_of_ne _ _ (hnames _ (h.proper _ item hp).head)]
      exact h.clear n' d' item hp

/-- A branch taken out of both. -/
theorem Tidy.prune (hp : s.layout.Unsealed p) :
    Tidy { s with disk := s.disk.prune (s.diskIn p), items := s.items.prune p } := by
  set s' : Drive := { s with disk := s.disk.prune (s.diskIn p), items := s.items.prune p } with hs'
  have hold : ∀ q, ¬ p <:+ q → s'.diskIn q = s.diskIn q := by
    intro q hq
    refine diskIn_congr s s' rfl fun r hr => ?_
    rw [get?_prune, if_neg fun hsuf => hq (hsuf.trans hr)]
  have hcases : ∀ q item, s'.items.get? q = some item → s.items.get? q = some item ∧ ¬ p <:+ q := by
    intro q item hq
    rw [show s'.items.get? q = _ from get?_prune p s.items q] at hq
    split at hq
    · cases hq
    · exact ⟨hq, ‹_›⟩
  have hdisk : ∀ x, ¬ s.diskIn p <:+ x → s'.disk.get? x = s.disk.get? x := by
    intro x hx
    rw [get?_prune, if_neg hx]
  refine ⟨⟨h.grown.prune _, fun q item hq => h.proper q item (hcases q item hq).1⟩, fun q item hq => ?_,
    fun seg d e he hseg => ?_, fun q q' item item' hq hq' => ?_, fun n d item hq => ?_⟩
  · obtain ⟨hq, hout⟩ := hcases q item hq
    rw [hold q hout, hdisk _ fun hsuf => hout (h.suffix_of_diskIn hp (h.unsealed hq) hsuf)]
    exact h.leads q item hq
  · rw [show s'.disk.get? (seg :: d) = _ from get?_prune _ _ _] at he
    split at he
    · cases he
    rename_i hout
    obtain ⟨q, item, hq, hqd⟩ := h.rowed seg d e he hseg
    have hqp : ¬ p <:+ q := fun hsuf => hout (hqd ▸ diskIn_suffix hsuf)
    refine ⟨q, item, ?_, (hold q hqp).trans hqd⟩
    rw [get?_prune, if_neg hqp, hq]
  · exact h.ids q q' item item' (hcases q item hq).1 (hcases q' item' hq').1
  · obtain ⟨hq, hout⟩ := hcases _ item hq
    have hd : ¬ p <:+ d := fun hsuf => hout (hsuf.trans (suffix_cons n d))
    rw [hold d hd]
    rw [get?_prune, h.clear n d item hq]
    exact ite_self none

end

/-! ### A branch that moves -/

/-- The branch at `n :: dp` may go to `m :: dt`: it stands, the folder it goes to stands outside it, and the new
name is free on disk and among the rows. -/
structure Movable (s : Drive) (n : Text) (dp : Path) (m : Text) (dt : Path) : Prop where
  source : s.layout.Unsealed (n :: dp)
  stands : ∃ e, s.disk.get? (s.diskIn (n :: dp)) = some e
  target : s.layout.Unsealed (m :: dt)
  folder : s.diskIn dt = [] ∨ s.disk.get? (s.diskIn dt) = some .dir
  outside : ¬ n :: dp <:+ dt
  unused : s.items.get? (m :: dt) = none
  free : s.disk.get? (m :: s.diskIn dt) = none
  vacant : Table.Vacant (s.diskIn (n :: dp)) ((s.diskLeaf (n :: dp)).getD m :: s.diskIn dt) s.disk
  proper : ∀ q item, s.items.get? (q ++ n :: dp) = some item → s.layout.Proper (m :: dt)

/-- Where the branch goes on disk: a private item keeps its name there. -/
def landing (s : Drive) (src : Path) (m : Text) (dt : Path) : Path := (s.diskLeaf src).getD m :: s.diskIn dt

/-- The branch moved on disk and among the rows. -/
def moved (s : Drive) (src : Path) (m : Text) (dt : Path) : Drive :=
  { s with
    disk := s.disk.relocate (s.diskIn src) (s.landing src m dt)
    items := s.items.relocate src (m :: dt) }

namespace Movable

variable {n m : Text} {dp dt : Path}

theorem rows_vacant (h : Movable s n dp m dt) (ht : Tidy s) : Table.Vacant (n :: dp) (m :: dt) s.items :=
  fun _ _ hp hsuf => absurd hsuf (ht.no_row_beneath h.unused h.free hp)

theorem not_into_self (m : Text) (dt : Path) : ¬ m :: dt <:+ dt := by
  intro hsuf
  have := hsuf.length_le
  rw [length_cons] at this
  omega

section

variable (h : Movable s n dp m dt)
include h

/-- Away from both places paths are translated as before. -/
theorem diskIn_other (ht : Tidy s) (hsrc : ¬ n :: dp <:+ q)
    (hdst : ¬ m :: dt <:+ q) : (s.moved (n :: dp) m dt).diskIn q = s.diskIn q :=
  diskIn_congr s (s.moved (n :: dp) m dt) rfl fun _ hr =>
    get?_relocate_other (h.rows_vacant ht) (fun hsuf => hsrc (hsuf.trans hr)) fun hsuf => hdst (hsuf.trans hr)

/-- Beneath the new place they are translated as they were beneath the old one. -/
theorem diskIn_moved (ht : Tidy s) (q : Path) : ∃ r, s.diskIn (q ++ n :: dp) = r ++ s.diskIn (n :: dp) ∧
      (s.moved (n :: dp) m dt).diskIn (q ++ m :: dt) = r ++ s.landing (n :: dp) m dt := by
  have hleaf : ∀ q, (s.moved (n :: dp) m dt).diskLeaf (q ++ m :: dt) = s.diskLeaf (q ++ n :: dp) := by
    intro q
    exact congrArg _ (get?_relocate_moved (h.rows_vacant ht) q)
  induction q with
  | nil =>
    refine ⟨[], rfl, ?_⟩
    have hleaf0 := hleaf []
    rw [nil_append] at hleaf0
    rw [nil_append, diskIn, hleaf0, h.diskIn_other ht h.outside (not_into_self m dt)]
    rfl
  | cons a q ih =>
    obtain ⟨r, hold, hnew⟩ := ih
    refine ⟨(s.diskLeaf (a :: q ++ n :: dp)).getD a :: r, ?_, ?_⟩
    · show (s.diskLeaf (a :: q ++ n :: dp)).getD a :: s.diskIn (q ++ n :: dp) = _
      rw [hold]
      rfl
    · show ((s.moved (n :: dp) m dt).diskLeaf (a :: q ++ m :: dt)).getD a ::
        (s.moved (n :: dp) m dt).diskIn (q ++ m :: dt) = _
      rw [hnew, hleaf (a :: q)]
      rfl

theorem disk_moved (r : Path) : (s.moved (n :: dp) m dt).disk.get? (r ++ s.landing (n :: dp) m dt) =
      s.disk.get? (r ++ s.diskIn (n :: dp)) := get?_relocate_moved h.vacant r

theorem row_cases (ht : Tidy s) (hp : (s.moved (n :: dp) m dt).items.get? p = some item) :
    (s.items.get? p = some item ∧ ¬ n :: dp <:+ p ∧ ¬ m :: dt <:+ p) ∨
      ∃ q, p = q ++ m :: dt ∧ s.items.get? (q ++ n :: dp) = some item := by
  rcases (get?_relocate_some (h.rows_vacant ht)).mp hp with ⟨hget, hout⟩ | hmoved
  · exact .inl ⟨hget, hout, ht.no_row_beneath h.unused h.free hget⟩
  · exact .inr hmoved

theorem moved_leads (ht : Tidy s) (hp : (s.moved (n :: dp) m dt).items.get? p = some item) :
    ∃ e, (s.moved (n :: dp) m dt).disk.get? ((s.moved (n :: dp) m dt).diskIn p) = some e := by
  rcases h.row_cases ht hp with ⟨hget, hsrc, hdst⟩ | ⟨q, rfl, hget⟩
  · obtain ⟨e, he⟩ := ht.leads p item hget
    have hout : ¬ s.diskIn (n :: dp) <:+ s.diskIn p :=
      fun hsuf => hsrc (ht.suffix_of_diskIn h.source (ht.unsealed hget) hsuf)
    have hland : ¬ s.landing (n :: dp) m dt <:+ s.diskIn p := fun hsuf => hout (h.vacant _ _ he hsuf)
    exact ⟨e, by rw [h.diskIn_other ht hsrc hdst, ← he]; exact get?_relocate_other h.vacant hout hland⟩
  · obtain ⟨r, hold, hnew⟩ := h.diskIn_moved ht q
    rw [hnew, h.disk_moved, ← hold]
    exact ht.leads _ item hget

theorem moved_rowed (ht : Tidy s)
    (he : (s.moved (n :: dp) m dt).disk.get? (seg :: d) = some e) (hseg : s.layout.isDiskName seg = true) :
    ∃ p item, (s.moved (n :: dp) m dt).items.get? p = some item ∧
      (s.moved (n :: dp) m dt).diskIn p = seg :: d := by
  have hback : ∀ q item, s.items.get? (q ++ n :: dp) = some item →
      (s.moved (n :: dp) m dt).items.get? (q ++ m :: dt) = some item :=
    fun q item hget => (get?_relocate_moved (h.rows_vacant ht) q).trans hget
  rcases (get?_relocate_some h.vacant).mp he with ⟨hget, hout⟩ | ⟨r, hr, hget⟩
  · obtain ⟨p, item, hp, hpd⟩ := ht.rowed seg d e hget hseg
    have hsrc : ¬ n :: dp <:+ p := fun hsuf => hout (hpd ▸ diskIn_suffix hsuf)
    have hdst := ht.no_row_beneath h.unused h.free hp
    exact ⟨p, item, (get?_relocate_other (h.rows_vacant ht) hsrc hdst).trans hp,
      (h.diskIn_other ht hsrc hdst).trans hpd⟩
  · cases r with
    | nil =>
      -- The moved entry itself: only a private one has such a name.
      cases hrow : s.items.get? (n :: dp) with
      | none =>
        rw [diskLeaf_none hrow] at hr
        rw [(cons.inj hr).1] at hseg
        exact absurd (h.target m mem_cons_self) (by rw [show s.layout.isDiskName m = true from hseg]; decide)
      | some item =>
        obtain ⟨r, hold, hnew⟩ := h.diskIn_moved ht []
        have hr0 : r = [] := by
          rw [nil_append] at hold
          have := congrArg length hold
          rw [length_append] at this
          exact eq_nil_of_length_eq_zero (by omega)
        refine ⟨m :: dt, item, hback [] item hrow, ?_⟩
        rw [hr0] at hnew
        exact hnew.trans hr.symm
    | cons a r =>
      obtain ⟨rfl, -⟩ := cons.inj hr
      obtain ⟨p, item, hp, hpd⟩ := ht.rowed seg _ e hget hseg
      have hsuf : n :: dp <:+ p := by
        apply ht.suffix_of_diskIn h.source (ht.unsealed hp)
        rw [hpd]
        exact ⟨seg :: r, rfl⟩
      obtain ⟨q, rfl⟩ := hsuf
      obtain ⟨r', hold, hnew⟩ := h.diskIn_moved ht q
      have hsame : r' = seg :: r := append_cancel_right (hold.symm.trans hpd)
      refine ⟨q ++ m :: dt, item, hback q item hp, ?_⟩
      rw [hnew, hsame]
      exact hr.symm

theorem moved_ids (ht : Tidy s) {p' : Path} {item' : Item}
    (hp : (s.moved (n :: dp) m dt).items.get? p = some item)
    (hp' : (s.moved (n :: dp) m dt).items.get? p' = some item') (hid : item.id = item'.id) : p = p' := by
  rcases h.row_cases ht hp with ⟨hget, hsrc, -⟩ | ⟨q, rfl, hget⟩
  · rcases h.row_cases ht hp' with ⟨hget', -, -⟩ | ⟨q', rfl, hget'⟩
    · exact ht.ids _ _ _ _ hget hget' hid
    · have hsame := ht.ids _ _ _ _ hget hget' hid
      exact absurd (hsame ▸ suffix_append q' _) hsrc
  · rcases h.row_cases ht hp' with ⟨hget', hsrc', -⟩ | ⟨q', rfl, hget'⟩
    · have hsame := ht.ids _ _ _ _ hget' hget hid.symm
      exact absurd (hsame ▸ suffix_append q _) hsrc'
    · have hsame := append_cancel_right (ht.ids _ _ _ _ hget hget' hid)
      rw [hsame]

/-- What lands is private under its own name on disk, or plain under the new name. -/
theorem landing_head {a : Text} (hland : a :: d = s.landing (n :: dp) m dt)
    (ha : isLunaName a = false ∨ a = m) : a = m ∧ d = s.diskIn dt ∧ s.items.get? (n :: dp) = none := by
  obtain ⟨hleaf, hd⟩ := cons.inj hland
  cases hrow : s.items.get? (n :: dp) with
  | none =>
    rw [diskLeaf_none hrow] at hleaf
    exact ⟨hleaf, hd, rfl⟩
  | some item =>
    rw [diskLeaf_some hrow, getD_some] at hleaf
    rcases ha with hluna | rfl
    · rw [hleaf, s.layout.isLunaName_diskName] at hluna
      cases hluna
    · have := h.target a mem_cons_self
      rw [hleaf, isDiskName_diskName] at this
      cases this

theorem moved_clear (ht : Tidy s) {a : Text}
    (hp : (s.moved (n :: dp) m dt).items.get? (a :: d) = some item) :
    (s.moved (n :: dp) m dt).disk.get? (a :: (s.moved (n :: dp) m dt).diskIn d) = none := by
  rw [eq_none_iff_forall_ne_some]
  intro e he
  rcases h.row_cases ht hp with ⟨hget, hsrc, hdst⟩ | ⟨q, hq, hget⟩
  · have hsrcd : ¬ n :: dp <:+ d := fun hsuf => hsrc (hsuf.trans (suffix_cons a d))
    have hdstd : ¬ m :: dt <:+ d := fun hsuf => hdst (hsuf.trans (suffix_cons a d))
    have hunsealed := ht.unsealed hget
    rw [h.diskIn_other ht hsrcd hdstd] at he
    rcases (get?_relocate_some h.vacant).mp he with ⟨hold, -⟩ | ⟨r, hr, -⟩
    · rw [ht.clear a d item hget] at hold
      cases hold
    cases r with
    | nil =>
      obtain ⟨rfl, hd, -⟩ := h.landing_head hr (.inl (ht.proper _ item hget).head)
      rw [ht.diskIn_inj hunsealed.tail h.target.tail hd, h.unused] at hget
      cases hget
    | cons b r =>
      -- The folder of the row would lie in the branch.
      obtain ⟨-, hd⟩ := cons.inj hr
      obtain ⟨e', he'⟩ := ht.leads _ item hget
      have hne : s.diskIn d ≠ [] := by
        rw [hd]
        exact append_ne_nil_of_right_ne_nil r (cons_ne_nil _ _)
      have habove : s.diskIn d <:+ s.diskIn (a :: d) := diskIn_suffix (suffix_cons a d)
      obtain ⟨e'', he''⟩ := ht.grown.taken_above he' habove hne
      have hin := h.vacant _ _ he'' (hd ▸ suffix_append r _)
      exact hsrcd (ht.suffix_of_diskIn h.source hunsealed.tail hin)
  · cases q with
    | nil =>
      obtain ⟨rfl, rfl⟩ := cons.inj hq
      rw [h.diskIn_other ht h.outside (not_into_self a d)] at he
      rcases (get?_relocate_some h.vacant).mp he with ⟨hold, -⟩ | ⟨r, hr, -⟩
      · rw [h.free] at hold
        cases hold
      cases r with
      | nil =>
        obtain ⟨-, -, hnone⟩ := h.landing_head hr (.inr rfl)
        rw [nil_append, hnone] at hget
        cases hget
      | cons b r =>
        have := congrArg length hr
        rw [length_append, length_cons, length_cons, length_cons] at this
        omega
    | cons b q =>
      rw [cons_append] at hq
      obtain ⟨rfl, rfl⟩ := cons.inj hq
      obtain ⟨r, hold, hnew⟩ := h.diskIn_moved ht q
      have hclear := ht.clear a (q ++ n :: dp) item hget
      rw [hnew, ← cons_append, h.disk_moved, cons_append, ← hold, hclear] at he
      cases he

/-- **A branch that moves on disk and among the rows leaves the two in step.** -/
theorem tidy (ht : Tidy s) : Tidy (s.moved (n :: dp) m dt) := by
  refine ⟨⟨?_, fun p item hp => ?_⟩, fun p item hp => h.moved_leads ht hp, fun seg d e he hseg => h.moved_rowed ht he hseg,
    fun p p' item item' hp hp' hid => h.moved_ids ht hp hp' hid, fun a d item hp => h.moved_clear ht hp⟩
  · refine ht.grown.relocate ?_ h.folder ?_ h.vacant
    · exact cons_ne_nil _ _
    · exact fun hsuf => h.outside (ht.suffix_of_diskIn h.source h.target.tail hsuf)
  · rcases h.row_cases ht hp with ⟨hget, -, -⟩ | ⟨q, rfl, hget⟩
    · exact ht.proper p item hget
    · exact (h.proper q item hget).append ((ht.proper _ item hget).beneath (cons_ne_nil n dp))

end

end Movable

/-! ### In step, as the proofs use it -/

theorem Tidy.realName_row (h : Tidy s) {n : Text} (hp : s.items.get? (n :: d) = some item) :
    s.realName (s.layout.diskName item.id) = n := by
  rw [realName, h.rowOf hp]
  rfl

theorem realName_plain (h : s.layout.isDiskName seg = false) : s.realName seg = seg := by
  rw [realName, rowOf_of_not_diskName h]
  rfl

/-- An entry under an id, with the row it has. -/
theorem Tidy.row_of_entry (h : Tidy s)
    (he : s.disk.get? (seg :: d) = some e) (hseg : s.layout.isDiskName seg = true) :
    ∃ n dp item, s.items.get? (n :: dp) = some item ∧ seg = s.layout.diskName item.id ∧ d = s.diskIn dp ∧
      s.realName seg = n := by
  obtain ⟨p, item, hp, hdisk⟩ := h.rowed seg d e he hseg
  cases p with
  | nil => cases hdisk
  | cons n dp =>
    rw [diskIn_cons_some hp] at hdisk
    obtain ⟨hname, hd⟩ := cons.inj hdisk
    exact ⟨n, dp, item, hp, hname.symm, hd.symm, hname ▸ h.realName_row hp⟩

theorem Tidy.inStep (h : Tidy s) : InStep s := by
  refine ⟨fun p item hp => ⟨?_, h.leads p item hp⟩, fun seg d e he hseg => ?_, fun a b d e e' ha hb hname => ?_⟩
  · cases p with
    | nil => exact absurd rfl (h.proper [] item hp).1
    | cons n d =>
      rw [diskIn_cons_some hp]
      rfl
  · obtain ⟨p, item, hp, hdisk⟩ := h.rowed seg d e he hseg
    refine ⟨p, item, hp, hdisk, fun p' item' hp' hname => ?_⟩
    cases p with
    | nil => cases hdisk
    | cons n dp =>
      rw [diskIn_cons_some hp, ← hname] at hdisk
      exact h.ids _ _ _ _ hp' hp (Subtype.ext (diskName_inj (cons.inj hdisk).1).symm)
  · -- Two private entries have two rows; a plain entry has no row's name.
    by_cases hpa : s.layout.isDiskName a = true
    · obtain ⟨n, dp, item, hp, rfl, rfl, hna⟩ := h.row_of_entry ha hpa
      by_cases hpb : s.layout.isDiskName b = true
      · obtain ⟨n', dp', item', hp', rfl, hd, hnb⟩ := h.row_of_entry hb hpb
        have hdp := h.diskIn_inj (h.unsealed hp).tail (h.unsealed hp').tail hd
        rw [hna, hnb] at hname
        subst hname hdp
        rw [hp] at hp'
        rw [some.inj hp']
      · rw [hna, realName_plain (Bool.not_eq_true _ ▸ hpb)] at hname
        rw [← hname, h.clear n dp item hp] at hb
        cases hb
    · by_cases hpb : s.layout.isDiskName b = true
      · obtain ⟨n', dp', item', hp', rfl, rfl, hnb⟩ := h.row_of_entry hb hpb
        rw [hnb, realName_plain (Bool.not_eq_true _ ▸ hpa)] at hname
        rw [hname, h.clear n' dp' item' hp'] at ha
        cases ha
      · rwa [realName_plain (Bool.not_eq_true _ ▸ hpa), realName_plain (Bool.not_eq_true _ ▸ hpb)] at hname

theorem InStep.tidy (h : InStep s) (hw : WellFormed s) : Tidy s := by
  have hids : ∀ p p' item item', s.items.get? p = some item → s.items.get? p' = some item' → item.id = item'.id →
      p = p' := by
    intro p p' item item' hp hp' hid
    obtain ⟨hhead, e, he⟩ := h.row_leads p item hp
    obtain ⟨d, hd⟩ : ∃ d, s.diskIn p = s.layout.diskName item.id :: d := by
      cases hdisk : s.diskIn p with
      | nil =>
        rw [hdisk] at hhead
        cases hhead
      | cons seg d =>
        rw [hdisk, head?_cons, some.injEq] at hhead
        exact ⟨d, by rw [hhead]⟩
    rw [hd] at he
    obtain ⟨p0, -, -, -, hunique⟩ := h.entry_has_row _ d e he (isDiskName_diskName item.id)
    rw [hunique p item hp rfl, hunique p' item' hp' (by rw [hid])]
  refine ⟨hw, fun p item hp => (h.row_leads p item hp).2, fun seg d e he hseg => ?_, hids, fun n d item hp => ?_⟩
  · obtain ⟨p, item, hp, hdisk, -⟩ := h.entry_has_row seg d e he hseg
    exact ⟨p, item, hp, hdisk⟩
  · rw [eq_none_iff_forall_ne_some]
    intro e he
    obtain ⟨-, e', he'⟩ := h.row_leads (n :: d) item hp
    rw [diskIn_cons_some hp] at he'
    have hluna := (hw.proper (n :: d) item hp).head
    have hrow : s.realName (s.layout.diskName item.id) = n := by
      cases hrow : s.rowOf (s.layout.diskName item.id) with
      | none => exact absurd rfl (rowOf_eq_none hrow hp)
      | some r =>
        obtain ⟨hget, hname⟩ := mem_of_rowOf hrow
        have hpath := hids _ _ _ _ hget hp (Subtype.ext (diskName_inj hname))
        rw [realName, hrow, bind_some, hpath]
        rfl
    have hplain := realName_plain (isDiskName_of_not_luna (l := s.layout) hluna)
    have hsame := h.names_differ _ _ _ _ _ he he' (hplain.trans hrow.symm)
    rw [hsame, s.layout.isLunaName_diskName] at hluna
    cases hluna

end Drive

end LibreServ.Files
