import LibreServ.PrivateCalls

/-! The trash of a drive, and whole runs of calls. Deleting looks rows up by a path that was trimmed once more,
and restoring puts the entry back under a trimmed name; where trimming changes nothing that a row depends on, rows
and disk stay in step. -/

namespace LibreServ.Files

open FileTree Drive List Option Table Except

variable {os : Os} {s s' : Drive} {formHash : Text → Text} {p dp : Path} {entry n : Text}

/-! ### The trash -/

/-- No private item lies at or beneath the path. -/
def Drive.NoneWithin (s : Drive) (p : Path) : Prop := ∀ q item, s.items.get? q = some item → ¬ p <:+ q

theorem Drive.NoneWithin.get? (h : s.NoneWithin p) : s.items.get? p = none := by
  cases hget : s.items.get? p with
  | none => rfl
  | some item => exact absurd (suffix_refl p) (h p item hget)

/-- Where no row is looked up, none changes. -/
theorem Drive.NoneWithin.repath {s₁ s₂ : Drive} {q : Path} (h : s.NoneWithin p) (hi : s₁.items = s.items)
    (hp : repath p q s₁ = .ok s₂) :
    s₂.layout = s₁.layout ∧ s₂.disk = s₁.disk ∧ ∀ x, s₂.items.get? x = s.items.get? x := by
  by_cases hsame : p = q
  · rw [Files.repath, if_pos hsame] at hp
    obtain rfl := ok.inj hp
    exact ⟨rfl, rfl, fun x => by rw [hi]⟩
  · have hs₂ := repath_ok hp hsame
    rw [hs₂, hi]
    exact ⟨rfl, rfl, fun x => get?_relocate_of_empty h x⟩

theorem isLunaName_trashEntryName (now n : Nat) (name : Text) : isLunaName (trashEntryName now n name) = false := by
  apply isLunaName_of_head
  have hdigits : ∀ rest : Text, (Nat.toDigits 10 now ++ rest).head? ≠ some '.' := by
    intro rest hhead
    rw [head?_append_of_ne_nil _ Nat.toDigits_ne_nil] at hhead
    have := Nat.isDigit_of_mem_toDigits (by decide) (by decide) (mem_of_head? hhead)
    exact absurd this (by decide)
  unfold trashEntryName
  split
  · exact hdigits _
  · rw [append_assoc]
    exact hdigits _

theorem Drive.Tidy.trash_not_item (ht : Tidy s) : s.items.get? [s.layout.trashName] = none := by
  cases hget : s.items.get? [s.layout.trashName] with
  | none => rfl
  | some item =>
    have hluna := (ht.proper _ item hget).head
    rw [Layout.trashName, s.layout.isLunaName_pfx] at hluna
    cases hluna

theorem Drive.Tidy.mkdirs_trash (ht : Tidy s) {disk : Tree Text (List UInt8)}
    (h : Tree.mkdirs [s.layout.trashName] s.disk = some disk) : Tidy { s with disk := disk } := by
  have hmade := h
  rw [Tree.mkdirs, Tree.mkdirs, bind_some] at hmade
  cases hget : s.disk.get? [s.layout.trashName] with
  | none =>
    rw [hget] at hmade
    obtain rfl := some.inj hmade
    exact ht.put_plain Layout.unsealed_nil Layout.isDiskName_trashName (.inl rfl) ht.trash_not_item hget .dir
  | some e =>
    rw [hget] at hmade
    cases e with
    | file f => cases hmade
    | dir | link =>
      obtain rfl := some.inj hmade
      exact ht

theorem proper_trash {l : Layout} (h : isLunaName entry = false) : l.Proper [entry, l.trashName] := by
  refine ⟨cons_ne_nil _ _, [entry], [l.trashName], rfl, ?_, .inr ⟨rfl, cons_ne_nil _ _⟩⟩
  intro seg hseg
  rw [mem_singleton.mp hseg]
  exact h

/-- The item goes into the trash: on disk, then among the rows looked up by `t`. -/
theorem Drive.Tidy.trashed {s₁ s₂ : Drive} {t : Path} (ht : Tidy s)
    (hsrc : s.layout.Unsealed (n :: dp)) (hentry : isLunaName entry = false)
    (ht' : t = n :: dp ∨ (s.NoneWithin (n :: dp) ∧ s.NoneWithin t))
    (hrow : s.items.get? [entry, s.layout.trashName] = none) (hfree : s.disk.get? [entry, s.layout.trashName] = none)
    (hr : renameNoreplace os (s.diskIn (n :: dp)) [(s.diskLeaf t).getD entry, s.layout.trashName] s = .ok s₁)
    (hp : repath t [entry, s.layout.trashName] s₁ = .ok s₂) :
    Movable s n dp entry [s.layout.trashName] ∧ s₂.layout = s.layout ∧
      (∀ p, s₂.disk.get? p = (s.moved (n :: dp) entry [s.layout.trashName]).disk.get? p) ∧
      ∀ p, s₂.items.get? p = (s.moved (n :: dp) entry [s.layout.trashName]).items.get? p := by
  have htrash : s.diskIn [s.layout.trashName] = [s.layout.trashName] := diskIn_cons_none ht.trash_not_item
  have hproper : s.layout.Proper [entry, s.layout.trashName] := proper_trash hentry
  have hfree' : s.disk.get? (entry :: s.diskIn [s.layout.trashName]) = none := by
    rw [htrash]
    exact hfree
  rcases ht' with rfl | ⟨hnone, hnone'⟩
  · have hr' : renameNoreplace os (s.diskIn (n :: dp)) (s.landing (n :: dp) entry [s.layout.trashName]) s = .ok s₁ := by
      rw [landing, htrash]
      exact hr
    exact ht.renamed hsrc hproper.unsealed hrow (fun _ => hfree') (fun _ _ _ => hproper) hr' hp
  · have hr' : renameNoreplace os (s.diskIn (n :: dp)) (s.landing (n :: dp) entry [s.layout.trashName]) s = .ok s₁ := by
      rw [diskLeaf_none hnone'.get?] at hr
      rw [landing, htrash, diskLeaf_none hnone.get?]
      exact hr
    obtain ⟨hmove, hl, hi, -, hd⟩ := ht.movable hsrc hproper.unsealed hrow (fun _ => hfree') (fun _ _ _ => hproper) hr'
    -- No row is looked up, and none would have to be.
    obtain ⟨hl', hd', hi'⟩ := hnone'.repath hi hp
    refine ⟨hmove, hl'.trans hl, fun p => by rw [hd', hd], fun p => ?_⟩
    rw [hi']
    exact (get?_relocate_of_empty hnone p).symm

/-- The boundary reads the rows only. -/
theorem Drive.boundaryFor_congr (hl : s'.layout = s.layout) (hi : s'.items = s.items) :
    s'.boundaryFor p = s.boundaryFor p := by
  have hrec : s'.boundaryRec p = s.boundaryRec p := by
    induction p with
    | nil => rfl
    | cons seg d ih =>
      rw [boundaryRec, boundaryRec, ih, hl, hi]
  rw [boundaryFor, boundaryFor, hi, hrec]

/-- The name an entry of the trash is called by, after its number. -/
def entryTitle (n : Text) (dp : Path) (s : Drive) : Text :=
  if (s.diskLeaf (n :: dp)).isSome then (split (trashedRel (n :: dp))).getLast?.getD ((s.diskLeaf (n :: dp)).getD n)
  else (s.diskLeaf (n :: dp)).getD n

/-- What is remembered of something deleted: where it was, and the private item it lay in. -/
def originOf (rel : Path) (s : Drive) : TrashMeta :=
  let provenance := s.boundaryFor (segments (trashedRel rel))
  { originalPath := trashedRel rel
    privateOwner := (provenance.map Boundary.owner).getD []
    privatePath := (provenance.map fun b => spelled b.path).getD [] }

/-- The branch at `n :: dp` is in the trash, as `entry`. -/
structure Trashed (s s' : Drive) (n : Text) (dp out : Path) (entry : Text) : Prop where
  shift : Shift s s' n dp entry [s.layout.trashName]
  out : out = [entry, trashApiAlias]
  origins : s'.trashMeta = s.trashMeta.put entry (originOf (n :: dp) s)

theorem intoTrash_trashed (ht : Tidy s) {now : Nat} {out : Path} (hsrc : s.layout.Unsealed (n :: dp))
    (hforms : s.FormsClear (n :: dp))
    (htrimmed : segments (trashedRel (n :: dp)) = n :: dp ∨
      (s.NoneWithin (n :: dp) ∧ s.NoneWithin (segments (trashedRel (n :: dp)))))
    (h : intoTrash os formHash now (n :: dp) (s.diskIn (n :: dp)) ((s.diskLeaf (n :: dp)).getD n) s = .ok (out, s')) :
    ∃ j, Trashed s s' n dp out (trashEntryName now j (entryTitle n dp s)) := by
  have hleaf : s.diskLeaf (n :: dp) = s.diskLeaf (segments (trashedRel (n :: dp))) := by
    rcases htrimmed with hsame | ⟨hnone, hnone'⟩
    · rw [hsame]
    · rw [diskLeaf_none hnone.get?, diskLeaf_none hnone'.get?]
  unfold intoTrash at h
  dsimp only at h
  rw [← hleaf] at h
  generalize hname : (if (s.diskLeaf (n :: dp)).isSome = true then
    (split (trashedRel (n :: dp))).getLast?.getD ((s.diskLeaf (n :: dp)).getD n)
    else (s.diskLeaf (n :: dp)).getD n) = name at h
  rw [show entryTitle n dp s = name from hname]
  obtain ⟨j, hj⟩ : ∃ j, trashSlot now (s.diskLeaf (n :: dp)) name s = trashEntryName now j name :=
    exists_firstFree _ _
  generalize trashSlot now (s.diskLeaf (n :: dp)) name s = entry at h hj
  have hentry : isLunaName entry = false := by
    rw [hj]
    exact isLunaName_trashEntryName now j name
  obtain ⟨htaken, h⟩ := of_ite_error h
  obtain ⟨s₁, hs₁, h⟩ := bind_ok h
  obtain ⟨s₂, hs₂, h⟩ := bind_ok h
  obtain ⟨hout, rfl⟩ := Prod.mk.inj (ok.inj h)
  have hs₁eq := (renameNoreplace_ok hs₁).2.2.2.2.2.2.2
  have hl₁ : s₁.layout = s.layout := by rw [hs₁eq]
  have hmeta : s₂.trashMeta = s.trashMeta := (repath_trashMeta hs₂).trans (renameNoreplace_trashMeta hs₁)
  have hboundary : s₁.boundaryFor (segments (trashedRel (n :: dp))) = s.boundaryFor (segments (trashedRel (n :: dp))) :=
    boundaryFor_congr (by rw [hs₁eq]) (by rw [hs₁eq])
  rw [trashTaken, Bool.or_eq_true, Bool.or_eq_true, not_or, not_or] at htaken
  obtain ⟨⟨hrow, hfree⟩, -⟩ := htaken
  rw [not_isSome_iff_eq_none] at hrow
  rw [hl₁] at hs₂
  have hs₁' := hs₁
  rw [hleaf] at hs₁'
  obtain ⟨hmove, hl, hd, hi⟩ := ht.trashed hsrc hentry htrimmed hrow
    (Tree.get?_of_not_taken (Bool.not_eq_true _ ▸ hfree)) hs₁' hs₂
  have htrash : s.diskIn [s.layout.trashName] = [s.layout.trashName] := diskIn_cons_none ht.trash_not_item
  have hland : [(s.diskLeaf (n :: dp)).getD entry, s.layout.trashName] = s.landing (n :: dp) entry [s.layout.trashName] := by
    rw [landing, htrash]
  have hshift : Shift s (repathFormFilesNamed os formHash (s.diskIn (n :: dp)) name
      (s.landing (n :: dp) entry [s.layout.trashName]) entry s₂) n dp entry [s.layout.trashName] := by
    refine hmove.shift ht hl hd hi ?_
    refine hforms.after hmove ht hl hi (hmove.after ht hl hd hi).2.1 fun hplain => ?_
    rw [← hname, diskLeaf_none hplain]
    rfl
  refine ⟨j, ?_⟩
  rw [hland, ← hj]
  refine ⟨hshift.congr rfl rfl rfl, hout.symm, ?_⟩
  rw [(repathFormFilesNamed_rows os formHash _ _ _ _ s₂).2.2, hmeta, hboundary]
  rfl

theorem deleteToTrash_trashed (ht : Tidy s) {now : Nat} {rel : Text} {out : Path}
    (h : deleteToTrash os formHash now rel s = .ok (out, s'))
    (hclean : ∀ apiRel, canonicalPath rel = .ok apiRel → s.FormsClear (s.realRel apiRel) ∧
      (segments (trashedRel (s.realRel apiRel)) = s.realRel apiRel ∨
        (s.NoneWithin (s.realRel apiRel) ∧ s.NoneWithin (segments (trashedRel (s.realRel apiRel)))))) :
    ∃ apiRel n dp disk j, canonicalPath rel = .ok apiRel ∧ s.realRel apiRel = n :: dp ∧
      isInternalTemp (n :: dp) = false ∧ Tree.mkdirs [s.layout.trashName] s.disk = some disk ∧
      Trashed { s with disk := disk } s' n dp out (trashEntryName now j (entryTitle n dp s)) := by
  obtain ⟨apiRel, hapi, h⟩ := bind_ok h
  obtain ⟨hforms, htrimmed⟩ := hclean apiRel hapi
  obtain ⟨hreserved, h⟩ := of_ite_error h
  obtain ⟨path, hpath, h⟩ := bind_ok h
  obtain ⟨rfl, hunsealed, -⟩ := ht.resolveChild_ok (resolve_ok hpath)
  generalize hp : s.realRel apiRel = p at *
  cases p with
  | nil => cases h
  | cons n dp =>
    cases hmade : Tree.mkdirs [s.layout.trashName] s.disk with
    | none =>
      rw [hmade] at h
      cases h
    | some disk =>
      rw [hmade] at h
      have hin : Drive.diskIn { s with disk := disk } (n :: dp) = s.diskIn (n :: dp) :=
        diskIn_congr s { s with disk := disk } rfl fun _ _ => rfl
      have h' : intoTrash os formHash now (n :: dp) (Drive.diskIn { s with disk := disk } (n :: dp))
          ((s.diskLeaf (n :: dp)).getD n) { s with disk := disk } = .ok (out, s') := by
        rw [hin]
        exact h
      obtain ⟨j, htrashed⟩ := intoTrash_trashed (ht.mkdirs_trash hmade) hunsealed hforms htrimmed h'
      exact ⟨apiRel, n, dp, disk, j, hapi, hp, Bool.not_eq_true _ ▸ hreserved, rfl, htrashed⟩

/-! ### Back out of the trash -/

theorem Drive.boundaryRec_none {q : Path} (h : s.boundaryRec p = none) (hq : q <:+ p) (hne : q ≠ []) :
    s.items.get? q = none := by
  induction p with
  | nil => exact absurd (suffix_nil.mp hq) hne
  | cons seg d ih =>
    rw [boundaryRec] at h
    split at h
    · cases h
    split at h
    · cases h
    split at h
    · cases h
    · rename_i hnone
      rcases suffix_cons_iff.mp hq with rfl | hq
      · exact hnone
      · exact ih h hq

theorem Drive.diskIn_of_no_items (h : ∀ q, q <:+ p → q ≠ [] → s.items.get? q = none) : s.diskIn p = p := by
  induction p with
  | nil => rfl
  | cons n d ih =>
    rw [diskIn_cons_none (h _ (suffix_refl _) (cons_ne_nil n d)),
      ih fun q hq hne => h q (hq.trans (suffix_cons n d)) hne]

theorem Drive.diskIn_of_no_boundary (h : s.boundaryFor p = none) : s.diskIn p = p := by
  apply diskIn_of_no_items
  intro q hq hne
  rw [boundaryFor] at h
  split at h
  · rename_i hrows
    rw [Table.get?, hrows]
    rfl
  · exact boundaryRec_none h hq hne

theorem makeMissingParents_tidy (ht : Tidy s) (hp : s.layout.Unsealed p)
    (h : makeMissingParents os p s = .ok s') :
    Tidy s' ∧ s'.layout = s.layout ∧ s'.items = s.items ∧
      ∀ x : Path, p.length < x.length → s'.disk.get? x = s.disk.get? x := by
  induction p generalizing s' with
  | nil =>
    obtain rfl := ok.inj h
    exact ⟨ht, rfl, rfl, fun _ _ => rfl⟩
  | cons seg d ih =>
    obtain ⟨s₁, hs₁, h⟩ := bind_ok h
    obtain ⟨ht₁, hl, hi, hd⟩ := ih hp.tail hs₁
    have hlonger : ∀ x : Path, (seg :: d).length < x.length → s₁.disk.get? x = s.disk.get? x := by
      intro x hx
      rw [length_cons] at hx
      exact hd x (by omega)
    split at h
    · split at h
      · obtain rfl := ok.inj h
        exact ⟨ht₁, hl, hi, hlonger⟩
      · cases h
    · obtain ⟨hprivate, h⟩ := of_ite_error h
      rw [not_or, not_isSome_iff_eq_none, not_isSome_iff_eq_none] at hprivate
      rw [← diskIn_of_no_boundary hprivate.2] at h
      have hs' := (createEntry_ok h).2.2
      refine ⟨ht₁.createEntry (cons_ne_nil seg d) (hl ▸ hp) h, by rw [hs', hl], by rw [hs', hi], fun x hx => ?_⟩
      have hne : x ≠ s₁.diskIn (seg :: d) := by
        rintro rfl
        rw [length_diskIn] at hx
        omega
      rw [hs', ← hlonger x hx]
      exact get?_put_of_ne _ _ hne
    · cases h

theorem makeMissingParents_trashMeta (h : makeMissingParents os p s = .ok s') :
    s'.trashMeta = s.trashMeta := by
  induction p generalizing s' with
  | nil => rw [← ok.inj h]
  | cons seg d ih =>
    obtain ⟨s₁, hs₁, h⟩ := bind_ok h
    rw [← ih hs₁]
    split at h
    · split at h
      · rw [← ok.inj h]
      · cases h
    · obtain ⟨-, h⟩ := of_ite_error h
      rw [(createEntry_ok h).2.2]
    · cases h

/-- A top-level trash entry. -/
theorem trashEntryParts_top {rel : Path} (h : trashEntryParts rel = some (entry, false)) :
    ∃ root, rel = [entry, root] := by
  unfold trashEntryParts at h
  split at h
  · obtain ⟨entry', hlast, heq⟩ := map_eq_some_iff.mp h
    obtain ⟨rfl, hlen⟩ := Prod.mk.inj heq
    rw [decide_eq_false_iff_not] at hlen
    match rel, hlast, hlen with
    | [_, root], hlast, _ => exact ⟨root, by rw [← some.inj hlast]; rfl⟩
    | _ :: _ :: _ :: _, _, hlen => exact absurd (by simp) hlen
  · cases h

theorem realRel_trash {apiRel : Path} (h : isTrashApi apiRel = true) {root : Text}
    (hrel : s.realRel apiRel = [entry, root]) : root = s.layout.trashName := by
  rw [Drive.realRel, if_pos h, show [entry, root] = [entry] ++ [root] from rfl] at hrel
  exact (cons.inj (append_inj' hrel rfl).2).1.symm

/-- The entry leaves the trash under the trimmed name; rows go to the name as given. -/
theorem Drive.Tidy.restored {s₁ s₂ : Drive} {m destName : Text} {dt : Path} (ht : Tidy s)
    (hsrc : s.layout.Unsealed (n :: dp)) (hluna : ∀ seg ∈ m :: dt, isLunaName seg = false)
    (hdest : isLunaName destName = false)
    (hnames : destName = m ∨ s.items.get? (n :: dp) ≠ none ∨ s.NoneWithin (n :: dp))
    (hrow : s.items.get? (m :: dt) = none)
    (hfree : s.items.get? (n :: dp) ≠ none → s.disk.get? (m :: s.diskIn dt) = none)
    (hr : renameNoreplace os (s.diskIn (n :: dp)) ((s.diskLeaf (n :: dp)).getD destName :: s.diskIn dt) s = .ok s₁)
    (hp : repath (n :: dp) (m :: dt) s₁ = .ok s₂) :
    ∃ m', (m' = m ∨ m' = destName) ∧
      s.landing (n :: dp) m' dt = (s.diskLeaf (n :: dp)).getD destName :: s.diskIn dt ∧ Movable s n dp m' dt ∧
      s₂.layout = s.layout ∧ (∀ p, s₂.disk.get? p = (s.moved (n :: dp) m' dt).disk.get? p) ∧
      ∀ p, s₂.items.get? p = (s.moved (n :: dp) m' dt).items.get? p := by
  have hproper : s.layout.Proper (m :: dt) := proper_of_not_luna (cons_ne_nil m dt) hluna
  by_cases hsame : (s.diskLeaf (n :: dp)).getD destName = (s.diskLeaf (n :: dp)).getD m
  · rw [hsame] at hr ⊢
    exact ⟨m, .inl rfl, rfl, ht.renamed hsrc hproper.unsealed hrow hfree (fun _ _ _ => hproper) hr hp⟩
  -- A plain entry without rows, under a name that was trimmed.
  have hplain : s.items.get? (n :: dp) = none := by
    cases hget : s.items.get? (n :: dp) with
    | none => rfl
    | some item => exact absurd (by rw [diskLeaf_some hget]; rfl) hsame
  have hnone : s.NoneWithin (n :: dp) := by
    rcases hnames with rfl | hitem | hnone
    · exact absurd rfl hsame
    · exact absurd hplain hitem
    · exact hnone
  have hunused : s.items.get? (destName :: dt) = none := by
    cases hget : s.items.get? (destName :: dt) with
    | none => rfl
    | some item =>
      have hclash := (renameNoreplace_ok hr).1
      rw [diskLeaf_none hplain, getD_none, siblingClash_of_row hget] at hclash
      cases hclash
  have htarget : s.layout.Unsealed (destName :: dt) :=
    Layout.Unsealed.cons (Layout.isDiskName_of_not_luna hdest) hproper.unsealed.tail
  obtain ⟨hmove, hl, hi, -, hd⟩ := ht.movable hsrc htarget hunused (fun hne => absurd hplain hne)
    (fun q item hq => absurd (suffix_append q _) (hnone _ item hq)) hr
  obtain ⟨hl', hd', hi'⟩ := hnone.repath hi hp
  exact ⟨destName, .inr rfl, rfl, hmove, hl'.trans hl, fun p => by rw [hd', hd], fun p => by
    rw [hi']
    exact (get?_relocate_of_empty hnone p).symm⟩

theorem restoreFromTrash_shift (ht : Tidy s) {trashRel dest : Text}
    (h : restoreFromTrash os formHash trashRel dest s = .ok s')
    (hclean : ∀ trashApi name parent, canonicalPath trashRel = .ok trashApi →
      canonicalPath dest = .ok (name :: parent) →
      (trim name = name ∨ s.items.get? (s.realRel trashApi) ≠ none ∨ s.NoneWithin (s.realRel trashApi)) ∧
        (s.items.get? (s.realRel trashApi) ≠ none → s.disk.get? (s.diskIn (name :: parent)) ≠ some .link)) :
    ∃ trashApi entry m dt s₁, canonicalPath trashRel = .ok trashApi ∧
      s.realRel trashApi = [entry, s.layout.trashName] ∧ (∀ seg ∈ m :: dt, isLunaName seg = false) ∧
      Tidy s₁ ∧ s₁.layout = s.layout ∧ s₁.items = s.items ∧ Shift s₁ s' entry [s.layout.trashName] m dt ∧
      s'.trashMeta = s.trashMeta.erase entry := by
  obtain ⟨trashApi, hapi, h⟩ := bind_ok h
  obtain ⟨q, hq, h⟩ := bind_ok h
  dsimp only at h
  obtain ⟨entry, hparts⟩ : ∃ entry, trashEntryParts (s.realRel trashApi) = some (entry, false) := by
    cases hparts : trashEntryParts (s.realRel trashApi) with
    | none =>
      rw [hparts] at h
      cases h
    | some parts =>
      obtain ⟨entry, deep⟩ := parts
      cases deep with
      | true =>
        rw [hparts] at h
        cases h
      | false => exact ⟨entry, rfl⟩
  rw [hparts] at h
  obtain ⟨htrash, h⟩ := of_ite_error h
  obtain ⟨hreserved, h⟩ := of_ite_error h
  obtain ⟨src, hsrc, h⟩ := bind_ok h
  rw [not_not] at htrash
  rw [not_or, not_or] at hreserved
  obtain ⟨root, hrel⟩ := trashEntryParts_top hparts
  obtain rfl := realRel_trash htrash hrel
  cases q with
  | nil => cases h
  | cons m dt =>
    obtain ⟨hnames, hlink⟩ := hclean trashApi m dt hapi hq
    have hluna := not_luna_of_not_internal hreserved.2.1
    obtain ⟨destName, hdestName, h⟩ := bind_ok h
    obtain ⟨hout, hdest⟩ := safeName_ok hdestName
    obtain ⟨hunused, h⟩ := of_ite_error h
    obtain ⟨s₁, hs₁, h⟩ := bind_ok h
    obtain ⟨parent, hparent, h⟩ := bind_ok h
    obtain ⟨s₂, hs₂, h⟩ := bind_ok h
    obtain ⟨s₃, hs₃, h⟩ := bind_ok h
    obtain rfl := ok.inj h
    obtain ⟨rfl, hunsealed, -⟩ := ht.resolveChild_ok (resolve_ok hsrc)
    rw [hrel] at hnames hlink hunused hs₂ hs₃ hunsealed ⊢
    have htarget : s.layout.Unsealed (m :: dt) := unsealed_of_not_luna hluna
    obtain ⟨ht₁, hl₁, hi₁, hd₁⟩ := makeMissingParents_tidy ht htarget.tail hs₁
    obtain ⟨rfl, -, -⟩ := ht₁.resolveChild_ok (resolve_ok hparent)
    rw [not_or, not_isSome_iff_eq_none] at hunused
    have hrow : s.items.get? (m :: dt) = none := hunused.1
    have hin : ∀ p, s₁.diskIn p = s.diskIn p := fun p => diskIn_congr s s₁ hl₁ fun _ _ => by rw [hi₁]
    have hleaf : ∀ p, s₁.diskLeaf p = s.diskLeaf p := fun p => by rw [diskLeaf, diskLeaf, hi₁, hl₁]
    have hfree : s₁.items.get? [entry, s.layout.trashName] ≠ none → s₁.disk.get? (m :: s₁.diskIn dt) = none := by
      rw [hi₁, hin, hd₁ _ (by rw [length_cons, length_diskIn]; omega)]
      intro hitem
      have hnot : (s.resolveChild (m :: dt)).isOk = false := by
        have := hunused.2
        rw [not_and, isSome_diskLeaf] at this
        exact Bool.not_eq_true _ ▸ this (isSome_iff_ne_none.mpr hitem)
      have hfree := ht.free_of_resolveChild (cons_ne_nil m dt) htarget hnot (hlink hitem)
      rwa [diskIn_cons_none hrow] at hfree
    rw [← hin, ← hleaf] at hs₂ ⊢
    have hnames₁ : destName = m ∨ s₁.items.get? [entry, s.layout.trashName] ≠ none ∨
        s₁.NoneWithin [entry, s.layout.trashName] := by
      rw [hout, NoneWithin, hi₁]
      exact hnames
    obtain ⟨m', hm', hland, hmove, hl, hd, hi⟩ :=
      ht₁.restored (hl₁ ▸ hunsealed) hluna hdest hnames₁ (hi₁ ▸ hrow) hfree hs₂ hs₃
    rw [← hland]
    have hshift : Shift s₁ (repathFormFilesNamed os formHash (s₁.diskIn [entry, s.layout.trashName]) entry
        (s₁.landing [entry, s.layout.trashName] m' dt) destName s₃) entry [s.layout.trashName] m' dt := by
      refine hmove.shift ht₁ hl hd hi ?_
      -- The answers file of a top-level trash entry is Luna's own.
      intro _ hhead
      have ht₃ := (hmove.after ht₁ hl hd hi).1
      rw [← hl₁, ← hl, diskIn_cons_none ht₃.trash_not_item] at hhead
      exact absurd rfl hhead
    have hluna' : ∀ seg ∈ m' :: dt, isLunaName seg = false := by
      intro seg hseg
      rcases mem_cons.mp hseg with rfl | hseg
      · rcases hm' with rfl | rfl
        · exact hluna _ mem_cons_self
        · exact hdest
      · exact hluna seg (mem_cons_of_mem _ hseg)
    have hmeta : s₃.trashMeta = s.trashMeta :=
      ((repath_trashMeta hs₃).trans (renameNoreplace_trashMeta hs₂)).trans (makeMissingParents_trashMeta hs₁)
    refine ⟨trashApi, entry, m', dt, s₁, hapi, hrel, hluna', ht₁, hl₁, hi₁, hshift.congr rfl rfl rfl, ?_⟩
    rw [(repathFormFilesNamed_rows os formHash _ _ _ _ s₃).2.2, hmeta]

/-! ### Out of the trash for good -/

/-- A branch in which no row lies may be taken off the disk. -/
theorem Drive.Tidy.prune_plain (ht : Tidy s) {a : Text} {d : Path} (ha : s.layout.isDiskName a = false)
    (hd : s.layout.Unsealed d) (hnone : s.NoneWithin (a :: d)) :
    Tidy { s with disk := s.disk.prune (a :: s.diskIn d) } := by
  have hpruned := ht.prune (Layout.Unsealed.cons ha hd)
  rw [diskIn_cons_none hnone.get?] at hpruned
  refine hpruned.congr rfl (fun _ => rfl) fun p => ?_
  rw [get?_prune]
  split
  · rename_i hsuf
    rw [eq_none_iff_forall_ne_some]
    exact fun item hp => hnone p item hp hsuf
  · rfl

/-- And so may an entry that is no folder. -/
theorem Drive.Tidy.erase_plain (ht : Tidy s) {a : Text} {d : Path} (ha : s.layout.isDiskName a = false)
    (hd : s.layout.Unsealed d) (hfile : s.disk.get? (a :: s.diskIn d) ≠ some .dir) :
    Tidy { s with disk := s.disk.erase (a :: s.diskIn d) } := by
  cases hrow : s.items.get? (a :: d) with
  | some item =>
    -- A private item has this name, so there is nothing to take off.
    refine ht.congr rfl (fun p => ?_) fun _ => rfl
    rw [get?_erase]
    split
    · rename_i hp
      rw [hp, ht.clear a d item hrow]
    · rfl
  | none =>
    have hnone : s.NoneWithin (a :: d) := by
      intro p item hp hsuf
      obtain ⟨e, he⟩ := ht.leads p item hp
      have hdisk := diskIn_suffix (s := s) hsuf
      rw [diskIn_cons_none hrow] at hdisk
      have hne : a :: s.diskIn d ≠ s.diskIn p := by
        intro heq
        have hsame : a :: d = p := by
          apply ht.diskIn_inj (Layout.Unsealed.cons ha hd) (ht.unsealed hp)
          rw [diskIn_cons_none hrow, heq]
        rw [← hsame, hrow] at hp
        cases hp
      exact hfile ((ht.grown.dir_above he hdisk hne).resolve_left (cons_ne_nil _ _))
    refine (ht.prune_plain ha hd hnone).congr rfl (fun p => ?_) fun _ => rfl
    rw [get?_erase, get?_prune]
    by_cases hp : p = a :: s.diskIn d
    · rw [if_pos hp, if_pos (hp ▸ suffix_refl _)]
    rw [if_neg hp]
    split
    · rename_i hsuf
      rw [eq_none_iff_forall_ne_some]
      exact fun e he => hfile ((ht.grown.dir_above he hsuf (Ne.symm hp)).resolve_left (cons_ne_nil _ _))
    · rfl

/-- What removing the files of a form does to the disk. -/
theorem removeFormFiles_cases (os : Os) (formHash : Text → Text) (x : Text) (d : Path) (s : Drive) :
    ∃ disk disk', removeFormFiles os formHash (x :: d) s = { s with disk := disk' } ∧
      (disk = s.disk ∨ ∃ name, disk = s.disk.prune (formDirName formHash s.layout name :: d)) ∧
      (disk' = disk ∨ ∃ seg, s.layout.isDiskName seg = false ∧ disk.get? (seg :: d) ≠ some .dir ∧
        disk' = disk.erase (seg :: d)) := by
  unfold removeFormFiles
  split
  · exact ⟨s.disk, s.disk, rfl, .inl rfl, .inl rfl⟩
  rename_i name _
  split
  · exact ⟨s.disk, s.disk, rfl, .inl rfl, .inl rfl⟩
  dsimp only
  obtain ⟨disk, hdisk, hs⟩ : ∃ disk, (disk = s.disk ∨ ∃ name, disk = s.disk.prune (formDirName formHash s.layout name :: d)) ∧
      (if s.disk.get? (filesDirNamed formHash s.layout (x :: d) name) ∈ [some .dir, some .link] ∧
          os.removes (filesDirNamed formHash s.layout (x :: d) name) = true then
        { s with disk := s.disk.prune (filesDirNamed formHash s.layout (x :: d) name) } else s) =
        { s with disk := disk } := by
    split
    · exact ⟨_, .inr ⟨name, rfl⟩, rfl⟩
    · exact ⟨s.disk, .inl rfl, rfl⟩
  rw [hs]
  cases hfile : responsesFileNamed formHash s.layout (x :: d) name with
  | none => exact ⟨disk, disk, rfl, hdisk, .inl rfl⟩
  | some file =>
    obtain ⟨-, seg, rfl, hseg, -⟩ := responsesFileNamed_cases hfile
    dsimp only
    split
    · rename_i hfile'
      exact ⟨disk, _, rfl, hdisk, .inr ⟨seg, hseg, hfile'.1, rfl⟩⟩
    · exact ⟨disk, disk, rfl, hdisk, .inl rfl⟩

/-- The files of a form go with it. -/
theorem Drive.Tidy.purged (ht : Tidy s) (hp : s.layout.Unsealed (n :: dp)) :
    Tidy (removeUnder (n :: dp) (removeFormFiles os formHash (s.diskIn (n :: dp))
      { s with disk := s.disk.prune (s.diskIn (n :: dp)) })) := by
  obtain ⟨disk, disk', hremoved, hdisk, hdisk'⟩ := removeFormFiles_cases os formHash ((s.diskLeaf (n :: dp)).getD n)
    (s.diskIn dp) { s with disk := s.disk.prune (s.diskIn (n :: dp)) }
  have hin : ∀ disk₁, Drive.diskIn { s with disk := disk₁, items := s.items.prune (n :: dp) } dp = s.diskIn dp := by
    intro disk₁
    refine diskIn_congr s { s with disk := disk₁, items := s.items.prune (n :: dp) } rfl fun q hq => ?_
    rw [get?_prune, if_neg fun hsuf => Movable.not_into_self n dp (hsuf.trans hq)]
  have hfirst : Tidy { s with disk := disk, items := s.items.prune (n :: dp) } := by
    have hpruned := ht.prune hp
    rcases hdisk with rfl | ⟨name, rfl⟩
    · exact hpruned
    have hluna := formDirName_luna s.layout formHash name []
    have hne := formDirName_ne_trashName s.layout formHash name []
    have hname : s.layout.isDiskName (formDirName formHash s.layout name ++ []) = false :=
      Layout.isDiskName_formDirName formHash []
    rw [append_nil] at hluna hne hname
    have hplain := hpruned.prune_plain hname hp.tail fun q item hq => (hpruned.proper q item hq).not_beneath hluna hne
    rw [hin] at hplain
    exact hplain
  show Tidy (removeUnder (n :: dp) (removeFormFiles os formHash ((s.diskLeaf (n :: dp)).getD n :: s.diskIn dp)
    { s with disk := s.disk.prune (s.diskIn (n :: dp)) }))
  rw [hremoved]
  rcases hdisk' with rfl | ⟨seg, hseg, hfile, rfl⟩
  · exact hfirst
  · have herased := hfirst.erase_plain hseg hp.tail (by rw [hin]; exact hfile)
    rw [hin] at herased
    exact herased

theorem removeFormFiles_rows (os : Os) (formHash : Text → Text) (path : Path) (s : Drive) :
    (removeFormFiles os formHash path s).layout = s.layout ∧ (removeFormFiles os formHash path s).items = s.items ∧
      (removeFormFiles os formHash path s).trashMeta = s.trashMeta := by
  cases path with
  | nil => exact ⟨rfl, rfl, rfl⟩
  | cons x d =>
    obtain ⟨_, disk', hremoved, -, -⟩ := removeFormFiles_cases os formHash x d s
    rw [hremoved]
    exact ⟨rfl, rfl, rfl⟩

theorem purgeTrash_purged (ht : Tidy s) {trashRel : Text} (h : purgeTrash os formHash trashRel s = .ok s') :
    ∃ trashApi, canonicalPath trashRel = .ok trashApi ∧ isTrashApi trashApi = true ∧ Tidy s' ∧
      s'.layout = s.layout ∧ s'.items = s.items.prune (s.realRel trashApi) ∧
      s'.trashMeta = (forgetOrigin (s.realRel trashApi) s).trashMeta := by
  obtain ⟨trashApi, hapi, h⟩ := bind_ok h
  obtain ⟨htrash, h⟩ := of_ite_error h
  rw [not_not] at htrash
  dsimp only at h
  refine ⟨trashApi, hapi, htrash, ?_⟩
  cases hparts : trashEntryParts (s.realRel trashApi) with
  | none =>
    rw [hparts] at h
    cases h
  | some parts =>
    rw [hparts] at h
    obtain ⟨path, hpath, h⟩ := bind_ok h
    obtain ⟨-, h⟩ := of_ite_error h
    obtain ⟨rfl, hunsealed, -⟩ := ht.resolveChild_ok (resolve_ok hpath)
    generalize hremoved : (if s.disk.get? (s.diskIn (s.realRel trashApi)) = some .dir then
      ({ s with disk := s.disk.prune (s.diskIn (s.realRel trashApi)) } : Drive) else
      removeFormFiles os formHash (s.diskIn (s.realRel trashApi))
        { s with disk := s.disk.prune (s.diskIn (s.realRel trashApi)) }) = s₁ at h
    obtain rfl := ok.inj h
    have hrows : s₁.layout = s.layout ∧ s₁.items = s.items ∧ s₁.trashMeta = s.trashMeta := by
      rw [← hremoved]
      split
      · exact ⟨rfl, rfl, rfl⟩
      · exact removeFormFiles_rows os formHash _ _
    obtain ⟨hl, -, hi⟩ := forgetOrigin_rows (s.realRel trashApi) (removeUnder (s.realRel trashApi) s₁)
    refine ⟨forgetOrigin_tidy ?_ _, hl.trans hrows.1, ?_, forgetOrigin_trashMeta _ hrows.2.2⟩
    · rw [← hremoved]
      have hpruned := ht.prune hunsealed
      split
      · exact hpruned
      · generalize s.realRel trashApi = p at *
        cases p with
        | nil => cases hparts
        | cons n dp => exact ht.purged hunsealed
    · rw [hi, removeUnder, hrows.2.1]

/-! ### Runs -/

instance (s : Drive) (p : Path) : Decidable (s.NoneWithin p) :=
  decidable_of_iff (∀ r ∈ s.items.rows, ¬ p <:+ r.1)
    ⟨fun h _ _ hq => h _ (Table.mem_rows.mpr hq), fun h r hr => h r.1 r.2 (Table.mem_rows.mp hr)⟩

instance (s : Drive) (rel : Path) : Decidable (s.FormsClear rel) :=
  match rel with
  | [] => isTrue (fun _ _ h => nomatch h)
  | n :: d =>
    decidable_of_iff (isFormPath n = true → s.items.get? (n :: d) = none → d.head? ≠ some s.layout.trashName →
        ∀ r ∈ s.items.rows, responsesName n :: d <:+ r.1 → s.items.get? (responsesName n :: d) ≠ none)
      ⟨fun h _ _ heq hform hplain htrash p item hp => by
          obtain ⟨rfl, rfl⟩ := List.cons.inj heq
          exact h hform hplain htrash (p, item) (Table.mem_rows.mpr hp),
        fun h hform hplain htrash r hr => h n d rfl hform hplain htrash r.1 r.2 (Table.mem_rows.mp hr)⟩

namespace Drive

/-- No folder with rows in it has the name of the answers file of a form that is renamed, and no link has the name a
private item gets. -/
def RenameClean (s : Drive) (rel newReal : Path) : Prop :=
  s.FormsClear rel ∧ (s.items.get? rel ≠ none → s.disk.get? (s.diskIn newReal) ≠ some .link)

/-- The path rows are looked up by is the path that is deleted, unless neither has any. -/
def DeleteClean (s : Drive) (rel : Path) : Prop :=
  s.FormsClear rel ∧ (segments (trashedRel rel) = rel ∨
    (s.NoneWithin rel ∧ s.NoneWithin (segments (trashedRel rel))))

/-- The name the entry gets on disk is the name rows are put under, unless there are none beneath it. -/
def RestoreClean (s : Drive) (trashRel : Path) (name : Text) (parent : Path) : Prop :=
  (trim name = name ∨ s.items.get? trashRel ≠ none ∨ s.NoneWithin trashRel) ∧
    (s.items.get? trashRel ≠ none → s.disk.get? (s.diskIn (name :: parent)) ≠ some .link)

instance (s : Drive) (rel newReal : Path) : Decidable (s.RenameClean rel newReal) :=
  inferInstanceAs (Decidable (_ ∧ (_ → _)))

instance (s : Drive) (rel : Path) : Decidable (s.DeleteClean rel) := inferInstanceAs (Decidable (_ ∧ (_ ∨ (_ ∧ _))))

instance (s : Drive) (trashRel : Path) (name : Text) (parent : Path) :
    Decidable (s.RestoreClean trashRel name parent) := inferInstanceAs (Decidable ((_ ∨ _ ∨ _) ∧ (_ → _)))

end Drive

/-- What a call has to find for rows and disk to stay in step. -/
def Call.Clean (s : Drive) : Call → Prop
  | .mkdirAs _ _ => True
  | .create _ => True
  | .rename rel newName => ∀ p ∈ (canonicalPath rel).toOption,
      s.RenameClean (s.realRel p) (renamedTo (s.realRel p) (trim newName) :: (s.realRel p).tail)
  | .moveRel src dst => ∀ p ∈ (canonicalPath src).toOption, ∀ q ∈ (canonicalPath dst).toOption,
      s.RenameClean (s.realRel p) (s.realRel q)
  | .deleteToTrash rel => ∀ p ∈ (canonicalPath rel).toOption, s.DeleteClean (s.realRel p)
  | .restoreFromTrash trashRel dest => ∀ p ∈ (canonicalPath trashRel).toOption, ∀ q ∈ (canonicalPath dest).toOption,
      ∀ name ∈ q.head?, s.RestoreClean (s.realRel p) name q.tail
  | .purgeTrash _ => True

instance (s : Drive) : ∀ c : Call, Decidable (c.Clean s)
  | .mkdirAs _ _ => isTrue trivial
  | .create _ => isTrue trivial
  | .rename _ _ => inferInstanceAs (Decidable (∀ _ ∈ _, _))
  | .moveRel _ _ => inferInstanceAs (Decidable (∀ _ ∈ _, ∀ _ ∈ _, _))
  | .deleteToTrash _ => inferInstanceAs (Decidable (∀ _ ∈ _, _))
  | .restoreFromTrash _ _ => inferInstanceAs (Decidable (∀ _ ∈ _, ∀ _ ∈ _, ∀ _ ∈ _, _))
  | .purgeTrash _ => isTrue trivial

theorem mem_toOption {ε α : Type} {x : Except ε α} {a : α} (h : x = .ok a) : a ∈ x.toOption := by
  rw [h]
  rfl

/-- The deletion behind a call that succeeds. -/
theorem Call.run_deleteToTrash {env : Env} {rel : Text} (h : (Call.deleteToTrash rel).run formHash env s = .ok s') :
    ∃ out, Files.deleteToTrash env.os formHash env.now rel s = .ok (out, s') := by
  have h : (Files.deleteToTrash env.os formHash env.now rel s).map Prod.snd = .ok s' := h
  cases hdelete : Files.deleteToTrash env.os formHash env.now rel s with
  | error e =>
    rw [hdelete] at h
    cases h
  | ok r =>
    rw [hdelete] at h
    obtain rfl := ok.inj h
    exact ⟨r.1, rfl⟩

theorem Call.run_tidy {env : Env} {c : Call} (ht : Tidy s) (hclean : c.Clean s) (h : c.run formHash env s = .ok s') :
    Tidy s' ∧ s'.layout = s.layout := by
  cases c with
  | mkdirAs rel owner => exact (mkdirAs_ok ht h).imp_right And.left
  | create rel => exact (create_ok ht h).imp_right And.left
  | rename rel newName =>
    obtain ⟨_, _, _, _, _, _, _, hshift, _⟩ := rename_shift ht h fun apiRel hapi => hclean apiRel (mem_toOption hapi)
    exact ⟨hshift.tidy, hshift.layout⟩
  | moveRel src dst =>
    obtain ⟨_, _, _, _, _, _, _, _, hshift, _⟩ := moveRel_shift ht h fun apiSrc apiDst hsrc hdst =>
      hclean apiSrc (mem_toOption hsrc) apiDst (mem_toOption hdst)
    exact ⟨hshift.tidy, hshift.layout⟩
  | deleteToTrash rel =>
    obtain ⟨out, hdelete⟩ := Call.run_deleteToTrash h
    obtain ⟨_, _, _, _, _, _, _, _, _, htrashed⟩ :=
      deleteToTrash_trashed ht hdelete fun apiRel hapi => hclean apiRel (mem_toOption hapi)
    exact ⟨htrashed.shift.tidy, htrashed.shift.layout⟩
  | restoreFromTrash trashRel dest =>
    obtain ⟨_, _, _, _, _, _, _, _, _, hl, _, hshift, _⟩ :=
      restoreFromTrash_shift ht h fun trashApi name parent htrash hdest =>
        hclean trashApi (mem_toOption htrash) (name :: parent) (mem_toOption hdest) name rfl
    exact ⟨hshift.tidy, hshift.layout.trans hl⟩
  | purgeTrash trashRel =>
    obtain ⟨_, _, _, htidy, hl, _⟩ := purgeTrash_purged ht h
    exact ⟨htidy, hl⟩

/-- Calls one after the other, each of which succeeds. -/
def runCalls (formHash : Text → Text) : List (Env × Call) → Drive → Except FilesError Drive
  | [], s => .ok s
  | (env, c) :: rest, s => c.run formHash env s >>= runCalls formHash rest

/-- Every call of the run finds the drive as `Call.Clean` asks. -/
def CleanRun (formHash : Text → Text) : List (Env × Call) → Drive → Prop
  | [], _ => True
  | (env, c) :: rest, s => c.Clean s ∧
      match c.run formHash env s with
      | .ok s' => CleanRun formHash rest s'
      | .error _ => True

instance decidableCleanRun (formHash : Text → Text) : ∀ calls s, Decidable (CleanRun formHash calls s)
  | [], _ => isTrue trivial
  | (env, c) :: rest, s =>
    have : Decidable (match c.run formHash env s with
        | .ok s' => CleanRun formHash rest s'
        | .error _ => True) := by
      cases c.run formHash env s with
      | ok s' => exact decidableCleanRun formHash rest s'
      | error _ => exact isTrue trivial
    inferInstanceAs (Decidable (_ ∧ _))

theorem runCalls_tidy {calls : List (Env × Call)} (ht : Tidy s) (hclean : CleanRun formHash calls s)
    (h : runCalls formHash calls s = .ok s') : Tidy s' := by
  induction calls generalizing s with
  | nil =>
    obtain rfl := ok.inj h
    exact ht
  | cons first rest ih =>
    obtain ⟨env, c⟩ := first
    obtain ⟨s₁, hs₁, h⟩ := bind_ok h
    obtain ⟨hfirst, hrest⟩ := hclean
    rw [hs₁] at hrest
    exact ih (c.run_tidy ht hfirst hs₁).1 hrest h

/-- **Private rows stay in step with the disk.** -/
theorem rows_stay_in_step {calls : List (Env × Call)} (hw : s.WellFormed) (hs : s.InStep)
    (hclean : CleanRun formHash calls s) (h : runCalls formHash calls s = .ok s') : s'.InStep :=
  (runCalls_tidy (hs.tidy hw) hclean h).inStep

/-! ### A run that is clean and one that is not -/

def freshLayout : Layout := ⟨".luna-3f6a8c1e-9b2d-4a7c-8e5f-1a2b3c4d5e6f".toList, by decide⟩

def freshDrive : Drive := ⟨freshLayout, Table.empty, Table.empty, Table.empty⟩

def calmEnv : Env :=
  ⟨⟨fun _ => true, fun _ _ => true, fun _ => true⟩, 5, ⟨"abcdefghijklmnopqrstuvwxyz".toList, by decide⟩⟩

theorem freshDrive_wellFormed : freshDrive.WellFormed := ⟨fun _ _ _ _ h => (nomatch h), fun _ _ h => (nomatch h)⟩

theorem freshDrive_inStep : freshDrive.InStep :=
  ⟨fun _ _ h => (nomatch h), fun _ _ _ h => (nomatch h), fun _ _ _ _ _ h => (nomatch h)⟩

/-- A folder with a private folder in it goes into the trash and comes back as `dest`. -/
def thereAndBack (dest : Text) : List (Env × Call) :=
  [(calmEnv, .mkdirAs "docs".toList none), (calmEnv, .mkdirAs "docs/secret".toList (some "ann".toList)),
    (calmEnv, .deleteToTrash "docs".toList), (calmEnv, .restoreFromTrash ".luna-trash/5-docs".toList dest)]

theorem exists_of_check {ε α : Type} (x : Except ε α) (check : α → Bool)
    (h : (match x with | .ok a => check a | .error _ => false) = true) : ∃ a, x = .ok a ∧ check a = true := by
  cases x with
  | ok a => exact ⟨a, rfl, h⟩
  | error e => cases h

theorem docs_back_in_step : ∃ s', runCalls (fun _ => []) (thereAndBack "old/docs".toList) freshDrive = .ok s' ∧
    s'.items.rows.length = 1 ∧ s'.InStep := by
  obtain ⟨s', hrun, hrows⟩ := exists_of_check (runCalls (fun _ => []) (thereAndBack "old/docs".toList) freshDrive)
    (fun s' => decide (s'.items.rows.length = 1)) (by decide +kernel)
  exact ⟨s', hrun, decide_eq_true_eq.mp hrows,
    rows_stay_in_step freshDrive_wellFormed freshDrive_inStep (by decide +kernel) hrun⟩

/-- Restored as ` docs`, the folder stands on disk as `docs`, and the row leads nowhere. -/
theorem blank_docs_out_of_step : freshDrive.WellFormed ∧ freshDrive.InStep ∧
    ∃ s', runCalls (fun _ => []) (thereAndBack "old/ docs".toList) freshDrive = .ok s' ∧ ¬ s'.InStep := by
  refine ⟨freshDrive_wellFormed, freshDrive_inStep, ?_⟩
  obtain ⟨s', hrun, hcheck⟩ := exists_of_check (runCalls (fun _ => []) (thereAndBack "old/ docs".toList) freshDrive)
    (fun s' => (s'.items.get? ["secret".toList, " docs".toList, "old".toList]).isSome &&
      (s'.disk.get? (s'.diskIn ["secret".toList, " docs".toList, "old".toList])).isNone) (by decide +kernel)
  refine ⟨s', hrun, fun hstep => ?_⟩
  rw [Bool.and_eq_true, isSome_iff_exists, isNone_iff_eq_none] at hcheck
  obtain ⟨⟨item, hitem⟩, hnone⟩ := hcheck
  obtain ⟨-, e, he⟩ := hstep.row_leads _ item hitem
  rw [hnone] at he
  cases he

end LibreServ.Files
