import LibreServ.AccessChecks
import LibreServ.FailedCalls
import LibreServ.Loops

/-! What becomes of the rows of grants: how they follow a move, and which of a member's rows make up the access roots.
A path is canonical when the spelling for grants leaves it as it is. -/

namespace LibreServ.Files

open List

variable {t : SubjectTable}

/-- A row of `access_members`, or of `access_links`, with who made the link for the member. -/
structure GrantRow extends MemberRow where
  id : Text
  deriving DecidableEq

/-- The two tables. -/
structure Grants where
  rows : SubjectTable → List GrantRow
  /-- `id` is the primary key. -/
  distinct : ∀ table, ((rows table).map (·.id)).Nodup

namespace Grants

/-- `UPDATE … SET drive_id, path WHERE id`. -/
def setPlace (w : Grants) (table : SubjectTable) (id driveId path : Text) : Grants where
  rows := Function.update w.rows table
    ((w.rows table).map fun r => if r.id = id then { r with driveId := driveId, path := path } else r)
  distinct := by
    intro t
    by_cases ht : t = table
    · subst ht
      rw [Function.update_self, List.map_map]
      have hids : ((·.id) ∘ fun r : GrantRow => if r.id = id then { r with driveId := driveId, path := path } else r) =
          (·.id) := by
        funext r
        rw [Function.comp_apply]
        split <;> rfl
      rw [hids]
      exact w.distinct t
    · rw [Function.update_of_ne ht]
      exact w.distinct t

variable (oldDrive oldPath newDrive newPath : Text)

/-- One turn of the loop over what was selected. -/
def repathRow (table : SubjectTable) (s : Grants × Nat) (row : Text × Text) : Grants × Nat :=
  let path := normalizeSubjectPath row.2
  if !containsText oldPath path then s
  else
    let suffix := path.drop oldPath.length
    (s.1.setPlace table row.1 newDrive (newPath ++ suffix), s.2 + 1)

def repathTable (s : Grants × Nat) (table : SubjectTable) : Grants × Nat :=
  let rows := ((s.1.rows table).filter fun r => r.subjectKind = .path && r.driveId = oldDrive).map
    fun r => (r.id, r.path)
  rows.foldl (repathRow oldPath newDrive newPath table) s

/-- The rows after the move, and how many were moved. -/
def repathSubjectsMove (w : Grants) : Grants × Nat :=
  let oldPath := normalizeSubjectPath oldPath
  let newPath := normalizeSubjectPath newPath
  if oldPath = [] then (w, 0)
  else [SubjectTable.members, .links].foldl (repathTable oldDrive oldPath newDrive newPath) (w, 0)

end Grants

def capsCover (mine want : Caps) : Bool := mine &&& want = want

def memberCapsOnPath (rows : List GrantRow) (driveId path : Text) : Caps :=
  rows.foldl (fun caps r =>
    if r.subjectKind ≠ .path ∨ r.driveId ≠ driveId then caps
    else if containsText r.path path then caps ||| r.caps else caps) 0

/-- Another row that makes this one needless. -/
def coveredBy (row other : GrantRow) : Bool :=
  other.id ≠ row.id && other.driveId = row.driveId && containsText other.path row.path && capsCover other.caps row.caps

def memberAccessRoots (rows : List GrantRow) : List GrantRow :=
  let paths := rows.filter (·.subjectKind = .path)
  rows.filter fun row => row.subjectKind ≠ .path || !paths.any (coveredBy row)

/-! ### Paths within paths -/

def Canonical (path : Text) : Prop := normalizeSubjectPath path = path

instance (path : Text) : Decidable (Canonical path) := inferInstanceAs (Decidable (_ = _))

/-- What lies at `s` below a path, and the path itself where `s` is empty. -/
def below (path s : Text) : Text := if s = [] then path else path ++ '/' :: s

variable {p q r : Text}

theorem containsText_eq_true : containsText p q = true ↔
    p = [] ∨ p = q ∨ (p <+: q ∧ q[p.length]? = some '/') := by
  simp only [containsText, Bool.or_eq_true, Bool.and_eq_true, decide_eq_true_eq, isPrefixOf_iff_prefix, or_assoc]

theorem containsText_refl (p : Text) : containsText p p = true := containsText_eq_true.mpr (.inr (.inl rfl))

theorem containsText_trans (hpq : containsText p q = true) (hqr : containsText q r = true) :
    containsText p r = true := by
  rw [containsText_eq_true] at hpq hqr ⊢
  rcases hpq with h | h | ⟨hpre, hslash⟩
  · exact .inl h
  · rw [h]
    exact hqr
  · rcases hqr with h | h | ⟨hpre', -⟩
    · rw [h] at hslash
      simp at hslash
    · rw [← h]
      exact .inr (.inr ⟨hpre, hslash⟩)
    · obtain ⟨rest, hrest⟩ := hpre'
      have hlt : p.length < q.length := by
        by_contra hge
        rw [getElem?_eq_none (by omega)] at hslash
        cases hslash
      refine .inr (.inr ⟨hpre.trans ⟨rest, hrest⟩, ?_⟩)
      rw [← hrest, getElem?_append_left hlt]
      exact hslash

theorem containsText_antisymm (hpq : containsText p q = true) (hqp : containsText q p = true) : p = q := by
  rw [containsText_eq_true] at hpq hqp
  have hnil : ∀ {a b : Text}, a = [] → b = [] ∨ b = a ∨ (b <+: a ∧ a[b.length]? = some '/') → a = b := by
    intro a b ha hb
    subst ha
    rcases hb with h | h | ⟨h, -⟩
    · exact h.symm
    · exact h.symm
    · exact (prefix_nil.mp h).symm
  rcases hpq with h | h | hpre
  · exact hnil h hqp
  · exact h
  · rcases hqp with h | h | hpre'
    · exact (hnil h (.inr (.inr hpre))).symm
    · exact h.symm
    · exact hpre.1.eq_of_length_le hpre'.1.length_le

/-- Whether a path lies in another depends on what follows a stem they share. -/
theorem containsText_stem {stem : Text} (hstem : stem ≠ []) (x y : Text) :
    containsText (stem ++ x) (stem ++ y) = true ↔ x = y ∨ (x <+: y ∧ y[x.length]? = some '/') := by
  have hne : stem ++ x ≠ [] := by
    intro h
    exact hstem (append_eq_nil_iff.mp h).1
  have hget : (stem ++ y)[(stem ++ x).length]? = y[x.length]? := by
    rw [length_append, getElem?_append_right (by omega), Nat.add_sub_cancel_left]
  rw [containsText_eq_true, hget]
  simp [hne]

theorem Canonical.getLast?_ne (h : Canonical p) : p.getLast? ≠ some '/' := by
  rw [Canonical, normalizeSubjectPath_eq, canonical] at h
  have hfolded := folded_filter (trim p)
  rw [← h, hfolded.getLast?_join]
  intro hlast
  obtain ⟨seg, hseg, hch⟩ := Option.bind_eq_some_iff.mp hlast
  have hmem := mem_of_getLast? hseg
  exact slash_not_mem_of_split (mem_of_mem_filter hmem) (mem_of_getLast? hch)

/-- What a path contains, by canonical paths. -/
theorem containsText_iff_below (hp : p ≠ []) (hq : Canonical q) : containsText p q = true ↔ ∃ s, q = below p s := by
  rw [containsText_eq_true]
  constructor
  · rintro (h | h | ⟨⟨rest, hrest⟩, hslash⟩)
    · exact absurd h hp
    · exact ⟨[], by rw [below, if_pos rfl, h]⟩
    · rw [← hrest, getElem?_append_right (le_refl _)] at hslash
      cases rest with
      | nil => cases hslash
      | cons ch s =>
        have hch : ch = '/' := by simpa using hslash
        subst hch
        refine ⟨s, ?_⟩
        by_cases hs : s = []
        · subst hs
          refine absurd ?_ hq.getLast?_ne
          rw [← hrest]
          simp
        · rw [below, if_neg hs, hrest]
  · rintro ⟨s, rfl⟩
    rw [below]
    split
    · exact .inr (.inl rfl)
    · exact .inr (.inr ⟨prefix_append _ _, by simp⟩)

theorem canonical_iff (hp : p ≠ []) : Canonical p ↔ trim p = p ∧ ∀ seg ∈ split p, kept seg = true := by
  rw [Canonical, normalizeSubjectPath_eq]
  constructor
  · intro h
    have htrim : trim p = p := by
      apply (trimMatches_sublist isWhitespace p).eq_of_length_le
      have hsub := (canonical_sublist (trim p)).length_le
      rwa [h] at hsub
    rw [htrim, canonical] at h
    have hfolded := folded_filter p
    have hnil : (split p).filter kept ≠ [] := by
      intro hnil
      rw [hnil] at h
      exact hp h.symm
    have hsplit : split p = (split p).filter kept := by
      conv_lhs => rw [← h]
      exact splitOn_intercalate '/' (fun seg hseg => (hfolded seg hseg).2) hnil
    refine ⟨htrim, fun seg hseg => ?_⟩
    rw [hsplit] at hseg
    exact (hfolded seg hseg).1
  · rintro ⟨htrim, hkept⟩
    rw [htrim, canonical, filter_eq_self.mpr hkept]
    exact intercalate_splitOn '/'

theorem split_append_slash_cons (p q : Text) : split (p ++ '/' :: q) = split p ++ split q :=
  splitOn_append_cons_self p q

/-- What is canonical below one path is so below another. -/
theorem Canonical.below {s : Text} (hq : q ≠ []) (hcanonical : Canonical q)
    (h : Canonical (below p s)) : Canonical (LibreServ.Files.below q s) := by
  by_cases hs : s = []
  · rwa [LibreServ.Files.below, if_pos hs]
  rw [LibreServ.Files.below, if_neg hs] at h ⊢
  obtain ⟨htrim, hkept⟩ := (canonical_iff (by simp)).mp h
  obtain ⟨htrim', hkept'⟩ := (canonical_iff hq).mp hcanonical
  refine (canonical_iff (by simp)).mpr ⟨?_, ?_⟩
  · apply trimMatches_eq_self
    · rw [head?_append_of_ne_nil _ hq]
      exact (edges_of_trimMatches htrim').1
    · have hlast := (edges_of_trimMatches htrim).2
      have hend : ∀ t : Text, (t ++ '/' :: s).getLast? = s.getLast? := fun t => by
        rw [getLast?_append_of_ne_nil _ (cons_ne_nil _ _), getLast?_cons_of_ne_nil hs]
      rw [hend] at hlast ⊢
      exact hlast
  · rw [split_append_slash_cons] at hkept ⊢
    intro seg hseg
    rcases mem_append.mp hseg with hseg | hseg
    · exact hkept' seg hseg
    · exact hkept seg (mem_append_right _ hseg)

/-! ### Moves -/

/-- The rows that a move takes along. -/
def moves (oldDrive oldPath : Text) (r : GrantRow) : Bool :=
  r.subjectKind = .path && r.driveId = oldDrive && containsText oldPath (normalizeSubjectPath r.path)

namespace Grants

variable {w : Grants} {oldDrive oldPath newDrive newPath : Text} {table : SubjectTable}

/-- A row after the move. -/
def follow (oldDrive oldPath newDrive newPath : Text) (r : GrantRow) : GrantRow :=
  if moves oldDrive oldPath r then
    { r with driveId := newDrive, path := newPath ++ (normalizeSubjectPath r.path).drop oldPath.length }
  else r

theorem follow_id (r : GrantRow) : (follow oldDrive oldPath newDrive newPath r).id = r.id := by
  rw [follow]
  split <;> rfl

theorem eq_of_id {r r' : GrantRow} (hr : r ∈ w.rows table) (hr' : r' ∈ w.rows table) (h : r.id = r'.id) : r = r' :=
  inj_on_of_nodup_map (w.distinct table) hr hr' h

theorem setPlace_rows (id driveId path : Text) : (w.setPlace table id driveId path).rows table =
    (w.rows table).map fun r => if r.id = id then { r with driveId := driveId, path := path } else r :=
  Function.update_self table _ w.rows

theorem setPlace_rows_of_ne (id driveId path : Text) (h : t ≠ table) :
    (w.setPlace table id driveId path).rows t = w.rows t :=
  Function.update_of_ne h _ w.rows

section

variable (s : Grants × Nat)

include s

/-- After some turns of the loop, the rows of these turns have followed. -/
theorem foldl_repathRow {selected : List GrantRow}
    (hrows : ∀ r ∈ selected, r ∈ s.1.rows table ∧ r.subjectKind = .path ∧ r.driveId = oldDrive) :
    ((selected.map fun r => (r.id, r.path)).foldl (repathRow oldPath newDrive newPath table) s).1.rows table =
      (s.1.rows table).map fun r => if r ∈ selected then follow oldDrive oldPath newDrive newPath r else r := by
  induction selected using reverseRecOn with
  | nil => simp
  | append_singleton selected x ih =>
    have hx := hrows x (mem_append_right _ mem_cons_self)
    have hrest := ih fun r hr => hrows r (mem_append_left _ hr)
    have hmem : ∀ r, r ∈ selected ++ [x] ↔ r ∈ selected ∨ r = x := by simp
    rw [map_append, foldl_append, map_singleton, foldl_cons, foldl_nil]
    generalize (selected.map fun r => (r.id, r.path)).foldl (repathRow oldPath newDrive newPath table) s = s'
      at hrest ⊢
    rw [repathRow]
    cases hcontains : containsText oldPath (normalizeSubjectPath x.path) with
    | false =>
      have hstays : follow oldDrive oldPath newDrive newPath x = x := by
        rw [follow, if_neg (by simp [moves, hcontains])]
      rw [if_pos (show (!false) = true from rfl), hrest]
      apply map_congr_left
      intro r _
      by_cases hr : r ∈ selected
      · rw [if_pos hr, if_pos ((hmem r).mpr (.inl hr))]
      · rw [if_neg hr]
        split
        · rename_i hnow
          rw [((hmem r).mp hnow).resolve_left hr, hstays]
        · rfl
    | true =>
      have hgoes : follow oldDrive oldPath newDrive newPath x =
          { x with driveId := newDrive, path := newPath ++ (normalizeSubjectPath x.path).drop oldPath.length } := by
        rw [follow, if_pos (by simp [moves, hcontains, hx.2])]
      rw [if_neg (show ¬ (!true) = true by decide), setPlace_rows, hrest, map_map]
      apply map_congr_left
      intro r hr
      rw [Function.comp_apply]
      by_cases hrx : r = x
      · subst hrx
        rw [if_pos ((hmem r).mpr (.inr rfl)), hgoes]
        split <;> exact if_pos rfl
      · have hid : ¬ r.id = x.id := fun h => hrx (eq_of_id hr hx.1 h)
        by_cases hsel : r ∈ selected
        · rw [if_pos hsel, if_pos ((hmem r).mpr (.inl hsel)), follow_id, if_neg hid]
        · rw [if_neg hsel, if_neg hid, if_neg fun h => ((hmem r).mp h).elim hsel hrx]

theorem foldl_repathRow_other (selected : List (Text × Text)) (h : t ≠ table) :
    (selected.foldl (repathRow oldPath newDrive newPath table) s).1.rows t = s.1.rows t := by
  refine Loops.foldl_keeps (P := fun s' : Grants × Nat => s'.1.rows t = s.1.rows t) ?_ rfl
  intro row _ s' hs'
  rw [repathRow]
  split
  · exact hs'
  · exact (setPlace_rows_of_ne _ _ _ h).trans hs'

theorem repathTable_rows : (repathTable oldDrive oldPath newDrive newPath s table).1.rows table =
    (s.1.rows table).map (follow oldDrive oldPath newDrive newPath) := by
  have hselected : ∀ r ∈ (s.1.rows table).filter fun r => r.subjectKind = .path && r.driveId = oldDrive,
      r ∈ s.1.rows table ∧ r.subjectKind = .path ∧ r.driveId = oldDrive := by
    intro r hr
    have hr := mem_filter.mp hr
    exact ⟨hr.1, by simpa using hr.2⟩
  rw [repathTable, foldl_repathRow s hselected]
  apply map_congr_left
  intro r hr
  split
  · rfl
  rename_i hsel
  rw [follow, if_neg]
  intro hmoves
  simp only [moves, Bool.and_eq_true] at hmoves
  apply hsel
  rw [mem_filter]
  exact ⟨hr, by simp [hmoves.1]⟩

theorem repathTable_rows_of_ne (h : t ≠ table) :
    (repathTable oldDrive oldPath newDrive newPath s table).1.rows t = s.1.rows t :=
  foldl_repathRow_other s _ h

end

/-- Both tables follow. -/
theorem repathSubjectsMove_rows (hold : Canonical oldPath) (hnew : Canonical newPath) (hne : oldPath ≠ [])
    (t : SubjectTable) : (repathSubjectsMove oldDrive oldPath newDrive newPath w).1.rows t =
      (w.rows t).map (follow oldDrive oldPath newDrive newPath) := by
  unfold Canonical at hold hnew
  simp only [repathSubjectsMove, hold, hnew, if_neg hne, foldl_cons, foldl_nil]
  cases t with
  | members => rw [repathTable_rows_of_ne _ (by decide), repathTable_rows]
  | links => rw [repathTable_rows, repathTable_rows_of_ne _ (by decide)]

/-! ### Grants follow moves -/

/-- The row at the place a move brings it to, or as it was. -/
def Follows (oldDrive oldPath newDrive newPath : Text) (r r' : GrantRow) : Prop :=
  (∃ s, r.subjectKind = .path ∧ r.driveId = oldDrive ∧ r.path = below oldPath s ∧
      r' = { r with driveId := newDrive, path := below newPath s }) ∨
    ((¬ ∃ s, r.subjectKind = .path ∧ r.driveId = oldDrive ∧ r.path = below oldPath s) ∧ r' = r)

def AllCanonical (w : Grants) : Prop := ∀ table, ∀ r ∈ w.rows table, r.subjectKind = .path → Canonical r.path

/-- A member's rows that a move takes along. -/
def takenAlong (w : Grants) (oldDrive oldPath user : Text) : List GrantRow :=
  (w.rows .members).filter fun r => r.userId = user && moves oldDrive oldPath r

theorem below_eq (p s : Text) : below p s = p ++ below [] s := by
  rw [below, below]
  split
  · exact (append_nil p).symm
  · rfl

theorem drop_below (p s : Text) : (below p s).drop p.length = below [] s := by
  rw [below_eq, drop_left]

theorem moves_iff {r : GrantRow} (hr : r.subjectKind = .path → Canonical r.path) (hne : oldPath ≠ []) :
    moves oldDrive oldPath r = true ↔
      ∃ s, r.subjectKind = .path ∧ r.driveId = oldDrive ∧ r.path = below oldPath s := by
  simp only [moves, Bool.and_eq_true, decide_eq_true_eq]
  constructor
  · rintro ⟨⟨hkind, hdrive⟩, hpath⟩
    rw [hr hkind, containsText_iff_below hne (hr hkind)] at hpath
    obtain ⟨s, hs⟩ := hpath
    exact ⟨s, hkind, hdrive, hs⟩
  · rintro ⟨s, hkind, hdrive, hs⟩
    rw [hr hkind]
    exact ⟨⟨hkind, hdrive⟩, (containsText_iff_below hne (hr hkind)).mpr ⟨s, hs⟩⟩

theorem follow_follows {r : GrantRow} (hr : r.subjectKind = .path → Canonical r.path) (hne : oldPath ≠ []) :
    Follows oldDrive oldPath newDrive newPath r (follow oldDrive oldPath newDrive newPath r) := by
  rw [follow]
  split
  · rename_i hmoves
    obtain ⟨s, hkind, hdrive, hs⟩ := (moves_iff hr hne).mp hmoves
    refine .inl ⟨s, hkind, hdrive, hs, ?_⟩
    rw [hr hkind, hs, drop_below, ← below_eq]
  · rename_i hstays
    exact .inr ⟨fun h => hstays ((moves_iff hr hne).mpr h), rfl⟩

theorem memberCapsOnPath_follow {rows : List GrantRow} (hrows : ∀ r ∈ rows, moves oldDrive oldPath r = true)
    (hcanonical : ∀ r ∈ rows, r.subjectKind = .path → Canonical r.path) (hne : oldPath ≠ []) (hne' : newPath ≠ [])
    (s : Text) :
    memberCapsOnPath (rows.map (follow oldDrive oldPath newDrive newPath)) newDrive (below newPath s) =
      memberCapsOnPath rows oldDrive (below oldPath s) := by
  rw [memberCapsOnPath, foldl_map]
  apply foldl_ext
  intro caps r hr
  obtain ⟨t, hkind, hdrive, hpath⟩ := (moves_iff (hcanonical r hr) hne).mp (hrows r hr)
  have hfollow : follow oldDrive oldPath newDrive newPath r =
      { r with driveId := newDrive, path := below newPath t } := by
    rw [follow, if_pos (hrows r hr), hcanonical r hr hkind, hpath, drop_below, ← below_eq]
  have hsame : containsText (below newPath t) (below newPath s) = containsText (below oldPath t) (below oldPath s) := by
    rw [Bool.eq_iff_iff, below_eq newPath, below_eq newPath, below_eq oldPath, below_eq oldPath,
      containsText_stem hne, containsText_stem hne']
  have hhere : ¬ (r.subjectKind ≠ .path ∨ r.driveId ≠ oldDrive) := by simp [hkind, hdrive]
  have hthere : ¬ (r.subjectKind ≠ .path ∨ newDrive ≠ newDrive) := by simp [hkind]
  rw [hfollow, if_neg hthere, if_neg hhere, hpath, hsame]

/-- The rows with the ids of these. -/
def sameRows (w : Grants) (rows : List GrantRow) : List GrantRow :=
  (w.rows .members).filter fun r => r.id ∈ rows.map (·.id)

theorem sameRows_takenAlong {w' : Grants} {user : Text}
    (hrows : w'.rows .members = (w.rows .members).map (follow oldDrive oldPath newDrive newPath)) :
    sameRows w' (takenAlong w oldDrive oldPath user) =
      (takenAlong w oldDrive oldPath user).map (follow oldDrive oldPath newDrive newPath) := by
  rw [sameRows, hrows, filter_map]
  congr 1
  apply filter_congr
  intro r hr
  rw [Function.comp_apply, follow_id, Bool.eq_iff_iff, decide_eq_true_eq]
  constructor
  · intro hid
    obtain ⟨r', hr', heq⟩ := mem_map.mp hid
    have hr' := mem_filter.mp hr'
    rw [← eq_of_id hr'.1 hr heq]
    exact hr'.2
  · intro htaken
    exact mem_map_of_mem (mem_filter.mpr ⟨hr, htaken⟩)

theorem follow_back {r : GrantRow} (hr : r.subjectKind = .path → Canonical r.path) (hnew : Canonical newPath)
    (hne : oldPath ≠ []) (hne' : newPath ≠ []) (hfree : moves newDrive newPath r = false) :
    follow newDrive newPath oldDrive oldPath (follow oldDrive oldPath newDrive newPath r) = r := by
  by_cases hmoves : moves oldDrive oldPath r = true
  · obtain ⟨s, hkind, hdrive, hpath⟩ := (moves_iff hr hne).mp hmoves
    have hcanonical : Canonical (below newPath s) := by
      have hold := hr hkind
      rw [hpath] at hold
      exact hnew.below hne' hold
    have hthere : follow oldDrive oldPath newDrive newPath r =
        { r with driveId := newDrive, path := below newPath s } := by
      rw [follow, if_pos hmoves, hr hkind, hpath, drop_below, ← below_eq]
    have hback : moves newDrive newPath { r with driveId := newDrive, path := below newPath s } = true :=
      (moves_iff (fun _ => hcanonical) hne').mpr ⟨s, hkind, rfl, rfl⟩
    rw [hthere, follow, if_pos hback, hcanonical, drop_below, ← below_eq, ← hpath, ← hdrive]
  · have hstays : follow oldDrive oldPath newDrive newPath r = r := by rw [follow, if_neg hmoves]
    rw [hstays, follow, if_neg (by simp [hfree])]

/-- A row moves exactly if it grants the moved place or something beneath it; it grants there what it granted here, and
moving back puts it back unless it was mixed up with rows that were there before. -/
theorem grants_follow_moves (w : Grants) {oldDrive oldPath newDrive newPath : Text} (hrows : w.AllCanonical)
    (hold : Canonical oldPath) (hnew : Canonical newPath) (hne : oldPath ≠ []) (hne' : newPath ≠ []) :
    let w' := (repathSubjectsMove oldDrive oldPath newDrive newPath w).1
    (∀ table, List.Forall₂ (Follows oldDrive oldPath newDrive newPath) (w.rows table) (w'.rows table)) ∧
      (∀ user s, memberCapsOnPath (takenAlong w oldDrive oldPath user) oldDrive (below oldPath s) =
        memberCapsOnPath (sameRows w' (takenAlong w oldDrive oldPath user)) newDrive (below newPath s)) ∧
      ((∀ table, ∀ r ∈ w.rows table, moves newDrive newPath r = false) →
        ∀ table, (repathSubjectsMove newDrive newPath oldDrive oldPath w').1.rows table = w.rows table) := by
  intro w'
  have hafter : ∀ table, w'.rows table = (w.rows table).map (follow oldDrive oldPath newDrive newPath) :=
    repathSubjectsMove_rows hold hnew hne
  refine ⟨fun table => ?_, fun user s => ?_, fun hfree table => ?_⟩
  · rw [hafter, forall₂_map_right_iff, forall₂_same]
    exact fun r hr => follow_follows (hrows table r hr) hne
  · rw [sameRows_takenAlong (hafter .members)]
    refine (memberCapsOnPath_follow (fun r hr => ?_) (fun r hr => ?_) hne hne' s).symm
    · exact (Bool.and_eq_true_iff.mp (mem_filter.mp hr).2).2
    · exact hrows .members r (mem_filter.mp hr).1
  · rw [repathSubjectsMove_rows hnew hold hne', hafter, map_map]
    conv_rhs => rw [← map_id (w.rows table)]
    apply map_congr_left
    intro r hr
    exact follow_back (hrows table r hr) hnew hne hne' (hfree table r hr)

/-! A grant on a folder, one within it and one on its sibling. -/

def photosRows : SubjectTable → List GrantRow
  | .members => [⟨⟨"ada".toList, .path, "d".toList, "Photos/2024".toList, capEdit⟩, "m1".toList⟩,
      ⟨⟨"ada".toList, .path, "d".toList, "Photos 2".toList, capView⟩, "m2".toList⟩]
  | .links => [⟨⟨"bo".toList, .path, "d".toList, "Photos".toList, capView⟩, "l1".toList⟩]

def photos : Grants where
  rows := photosRows
  distinct := by
    intro table
    cases table <;> decide

theorem photos_canonical : photos.AllCanonical := by
  intro table
  cases table <;> decide +kernel

theorem photos_follow_moves : (repathSubjectsMove "d".toList "Photos".toList "d".toList "Photos/old".toList photos).1.rows
      .links = [⟨⟨"bo".toList, .path, "d".toList, "Photos/old".toList, capView⟩, "l1".toList⟩] ∧
    ∀ table, (repathSubjectsMove "d".toList "Photos/old".toList "d".toList "Photos".toList
      (repathSubjectsMove "d".toList "Photos".toList "d".toList "Photos/old".toList photos).1).1.rows table =
        photos.rows table :=
  ⟨by decide +kernel, (grants_follow_moves photos photos_canonical (by decide +kernel) (by decide +kernel)
    (by decide) (by decide)).2.2 fun table => by cases table <;> decide +kernel⟩

/-- What moves to the top of a drive is not granted there, and does not come back. -/
theorem grant_lost_at_top : Canonical "Photos".toList ∧ Canonical [] ∧ photos.AllCanonical ∧
    memberCapsOnPath (takenAlong photos "d".toList "Photos".toList "ada".toList) "d".toList
      (below "Photos".toList "2024".toList) = capEdit ∧
    memberCapsOnPath (sameRows (repathSubjectsMove "d".toList "Photos".toList "e".toList [] photos).1
      (takenAlong photos "d".toList "Photos".toList "ada".toList)) "e".toList "2024".toList = 0 ∧
    (∀ table, ∀ r ∈ photos.rows table, moves "e".toList [] r = false) ∧
    (repathSubjectsMove "e".toList [] "d".toList "Photos".toList
      (repathSubjectsMove "d".toList "Photos".toList "e".toList [] photos).1).1.rows .members ≠ photos.rows .members :=
  ⟨by decide +kernel, by decide +kernel, photos_canonical, by decide +kernel, by decide +kernel,
    by intro table; cases table <;> decide +kernel, by decide +kernel⟩

end Grants

/-! ### Access roots -/

/-- What a row grants and where. A grant is wider than those it covers. -/
structure Scope where
  driveId : Text
  path : Text
  caps : Caps

theorem capsCover_iff {mine want : Caps} :
    capsCover mine want = true ↔ ∀ i, want.getLsbD i = true → mine.getLsbD i = true := by
  rw [capsCover, decide_eq_true_eq]
  constructor
  · intro h i hi
    rw [← h, BitVec.getLsbD_and, Bool.and_eq_true] at hi
    exact hi.1
  · intro h
    apply BitVec.eq_of_getLsbD_eq
    intro i _
    rw [BitVec.getLsbD_and, Bool.eq_iff_iff, Bool.and_eq_true]
    exact ⟨fun hi => hi.2, fun hi => ⟨h i hi, hi⟩⟩

instance : PartialOrder Scope where
  le narrow wide := narrow.driveId = wide.driveId ∧ containsText wide.path narrow.path = true ∧
    capsCover wide.caps narrow.caps = true
  le_refl s := ⟨rfl, containsText_refl s.path, capsCover_iff.mpr fun _ hi => hi⟩
  le_trans a b c hab hbc := ⟨hab.1.trans hbc.1, containsText_trans hbc.2.1 hab.2.1,
    capsCover_iff.mpr fun i hi => capsCover_iff.mp hbc.2.2 i (capsCover_iff.mp hab.2.2 i hi)⟩
  le_antisymm a b hab hba := by
    obtain ⟨driveId, path, caps⟩ := a
    obtain ⟨driveId', path', caps'⟩ := b
    obtain ⟨hdrive, hpath, hcaps⟩ := hab
    have hsame : caps = caps' := by
      apply BitVec.eq_of_getLsbD_eq
      intro i _
      rw [Bool.eq_iff_iff]
      exact ⟨capsCover_iff.mp hcaps i, capsCover_iff.mp hba.2.2 i⟩
    rw [Scope.mk.injEq]
    exact ⟨hdrive, containsText_antisymm hba.2.1 hpath, hsame⟩

def GrantRow.scope (r : GrantRow) : Scope := ⟨r.driveId, r.path, r.caps⟩

theorem coveredBy_iff {row other : GrantRow} :
    coveredBy row other = true ↔ other.id ≠ row.id ∧ row.scope ≤ other.scope := by
  simp only [coveredBy, Bool.and_eq_true, decide_eq_true_eq]
  constructor
  · rintro ⟨⟨⟨hid, hdrive⟩, hpath⟩, hcaps⟩
    exact ⟨hid, hdrive.symm, hpath, hcaps⟩
  · rintro ⟨hid, hdrive, hpath, hcaps⟩
    exact ⟨⟨⟨hid, hdrive.symm⟩, hpath⟩, hcaps⟩

section

variable (rows : List GrantRow)

/-- No row on a path grants more than this one. -/
def Widest (r : GrantRow) : Prop := ∀ o ∈ rows, o.subjectKind = .path → r.scope ≤ o.scope → o.scope = r.scope

/-- No other row grants the same. -/
def Single (r : GrantRow) : Prop := ∀ o ∈ rows, o.subjectKind = .path → o.scope = r.scope → o.id = r.id

/-- The row grants a capability on a path. -/
def Gives (r : GrantRow) (driveId path : Text) (i : Nat) : Prop :=
  r.subjectKind = .path ∧ r.driveId = driveId ∧ containsText r.path path = true ∧ r.caps.getLsbD i = true

/-- Where the widest row stands more than once, others that stand once grant as much. -/
def DoubledBacked : Prop :=
  ∀ r ∈ rows, r.subjectKind = .path → Widest rows r → ¬ Single rows r → ∀ i, r.caps.getLsbD i = true →
    ∃ o ∈ rows, Widest rows o ∧ Single rows o ∧ Gives o r.driveId r.path i

end

variable {rows : List GrantRow}

theorem memberCapsOnPath_bit (rows : List GrantRow) (driveId path : Text) (i : Nat) :
    (memberCapsOnPath rows driveId path).getLsbD i = true ↔ ∃ r ∈ rows, Gives r driveId path i := by
  have hfold : ∀ caps : Caps, (rows.foldl (fun caps r =>
      if r.subjectKind ≠ .path ∨ r.driveId ≠ driveId then caps
      else if containsText r.path path then caps ||| r.caps else caps) caps).getLsbD i = true ↔
        caps.getLsbD i = true ∨ ∃ r ∈ rows, Gives r driveId path i := by
    induction rows with
    | nil => simp
    | cons r rows ih =>
      intro caps
      rw [foldl_cons, ih, exists_mem_cons_iff, ← or_assoc]
      apply or_congr_left
      by_cases hrow : r.subjectKind ≠ .path ∨ r.driveId ≠ driveId
      · have hnot : ¬ Gives r driveId path i := fun h => hrow.elim (fun hk => hk h.1) fun hd => hd h.2.1
        rw [if_pos hrow, or_iff_left hnot]
      rw [not_or, not_not, not_not] at hrow
      rw [if_neg (by simp [hrow])]
      by_cases hpath : containsText r.path path = true
      · rw [if_pos hpath, BitVec.getLsbD_or, Bool.or_eq_true]
        apply or_congr_right
        exact ⟨fun hi => ⟨hrow.1, hrow.2, hpath, hi⟩, fun h => h.2.2.2⟩
      · have hnot : ¬ Gives r driveId path i := fun h => hpath h.2.2.1
        rw [if_neg hpath, or_iff_left hnot]
  rw [memberCapsOnPath, hfold]
  simp

theorem mem_memberAccessRoots {r : GrantRow} : r ∈ memberAccessRoots rows ↔
    r ∈ rows ∧ (r.subjectKind = .path → ∀ o ∈ rows, o.subjectKind = .path → r.scope ≤ o.scope → o.id = r.id) := by
  rw [memberAccessRoots, mem_filter]
  apply and_congr_right
  intro _
  rw [Bool.or_eq_true, decide_eq_true_eq, Bool.not_eq_true', any_eq_false]
  constructor
  · rintro h hkind o ho hpath hle
    by_contra hid
    refine h.elim (fun hk => hk hkind) fun hall => ?_
    exact hall o (mem_filter.mpr ⟨ho, by simpa using hpath⟩) (coveredBy_iff.mpr ⟨hid, hle⟩)
  · intro h
    by_cases hkind : r.subjectKind = .path
    · refine .inr fun o ho hcovered => ?_
      have ho := mem_filter.mp ho
      obtain ⟨hid, hle⟩ := coveredBy_iff.mp hcovered
      exact hid (h hkind o ho.1 (by simpa using ho.2) hle)
    · exact .inl hkind

/-- A row on a path stays if it is among the widest and stands once. -/
theorem mem_roots_iff (hids : (rows.map (·.id)).Nodup) {r : GrantRow} (hr : r ∈ rows) (hkind : r.subjectKind = .path) :
    r ∈ memberAccessRoots rows ↔ Widest rows r ∧ Single rows r := by
  rw [mem_memberAccessRoots]
  constructor
  · rintro ⟨-, h⟩
    refine ⟨fun o ho hpath hle => ?_, fun o ho hpath hsame => h hkind o ho hpath hsame.ge⟩
    rw [inj_on_of_nodup_map hids ho hr (h hkind o ho hpath hle)]
  · rintro ⟨hwidest, hsingle⟩
    exact ⟨hr, fun _ o ho hpath hle => hsingle o ho hpath (hwidest o ho hpath hle)⟩

/-- Above every row on a path there is one of the widest. -/
theorem exists_widest {r : GrantRow} (hr : r ∈ rows) (hkind : r.subjectKind = .path) :
    ∃ o ∈ rows, o.subjectKind = .path ∧ r.scope ≤ o.scope ∧ Widest rows o := by
  let scopes : Set Scope := {s | ∃ o ∈ rows, o.subjectKind = .path ∧ o.scope = s}
  have hfinite : scopes.Finite := by
    apply (rows.map GrantRow.scope).finite_toSet.subset
    rintro s ⟨o, ho, -, rfl⟩
    exact mem_map_of_mem ho
  obtain ⟨s, hle, ⟨o, ho, hpath, rfl⟩, hmax⟩ := hfinite.exists_le_maximal (a := r.scope) ⟨r, hr, hkind, rfl⟩
  refine ⟨o, ho, hpath, hle, fun o' ho' hpath' hle' => ?_⟩
  exact le_antisymm (hmax ⟨o', ho', hpath', rfl⟩ hle') hle'

theorem memberAccessRoots_idem (rows : List GrantRow) :
    memberAccessRoots (memberAccessRoots rows) = memberAccessRoots rows := by
  conv_lhs => rw [memberAccessRoots]
  rw [filter_eq_self]
  intro r hr
  have hr' := (mem_memberAccessRoots.mp hr).2
  have hin : r ∈ memberAccessRoots (memberAccessRoots rows) := by
    rw [mem_memberAccessRoots]
    exact ⟨hr, fun hkind o ho => hr' hkind o (mem_memberAccessRoots.mp ho).1⟩
  exact (mem_filter.mp hin).2

/-- The access roots grant what the rows grant, exactly if doubled rows are not needed. -/
theorem accessRoots_exact_iff (hids : (rows.map (·.id)).Nodup) :
    ((∀ driveId path, memberCapsOnPath (memberAccessRoots rows) driveId path = memberCapsOnPath rows driveId path) ∧
      memberAccessRoots (memberAccessRoots rows) = memberAccessRoots rows) ↔ DoubledBacked rows := by
  constructor
  · rintro ⟨hsame, -⟩ r hr hkind hwidest hdoubled i hi
    have hgiven : (memberCapsOnPath rows r.driveId r.path).getLsbD i = true :=
      (memberCapsOnPath_bit rows r.driveId r.path i).mpr ⟨r, hr, hkind, rfl, containsText_refl r.path, hi⟩
    rw [← hsame, memberCapsOnPath_bit] at hgiven
    obtain ⟨o, ho, hgives⟩ := hgiven
    have hrows := (mem_memberAccessRoots.mp ho).1
    obtain ⟨hwidest', hsingle⟩ := (mem_roots_iff hids hrows hgives.1).mp ho
    exact ⟨o, hrows, hwidest', hsingle, hgives⟩
  · intro hbacked
    refine ⟨fun driveId path => ?_, memberAccessRoots_idem rows⟩
    apply BitVec.eq_of_getLsbD_eq
    intro i _
    rw [Bool.eq_iff_iff, memberCapsOnPath_bit, memberCapsOnPath_bit]
    constructor
    · rintro ⟨r, hr, hgives⟩
      exact ⟨r, (mem_memberAccessRoots.mp hr).1, hgives⟩
    · rintro ⟨r, hr, hkind, hdrive, hpath, hi⟩
      obtain ⟨o, ho, hokind, ⟨hodrive, hopath, hocaps⟩, hwidest⟩ := exists_widest hr hkind
      have hoi := capsCover_iff.mp hocaps i hi
      have hto : containsText o.path path = true := containsText_trans hopath hpath
      by_cases hsingle : Single rows o
      · exact ⟨o, (mem_roots_iff hids ho hokind).mpr ⟨hwidest, hsingle⟩, hokind, hodrive.symm.trans hdrive, hto, hoi⟩
      · obtain ⟨o', ho', hwidest', hsingle', hkind', hdrive', hpath', hi'⟩ := hbacked o ho hokind hwidest hsingle i hoi
        refine ⟨o', (mem_roots_iff hids ho' hkind').mpr ⟨hwidest', hsingle'⟩, hkind', ?_,
          containsText_trans hpath' hto, hi'⟩
        exact hdrive'.trans (hodrive.symm.trans hdrive)

theorem accessRoots_exact_of_photos : (∀ driveId path,
    memberCapsOnPath (memberAccessRoots (Grants.photosRows .members)) driveId path =
      memberCapsOnPath (Grants.photosRows .members) driveId path) ∧
    memberAccessRoots (memberAccessRoots (Grants.photosRows .members)) =
      memberAccessRoots (Grants.photosRows .members) := by
  apply (accessRoots_exact_iff (Grants.photos.distinct .members)).mpr
  intro r hr _ _ hdoubled
  refine absurd (fun o ho _ hsame => ?_) hdoubled
  have hscopes : ∀ r ∈ Grants.photosRows .members, ∀ o ∈ Grants.photosRows .members, o.path = r.path → o.id = r.id := by
    decide +kernel
  exact hscopes r hr o ho (congrArg Scope.path hsame)

/-- Two rows that grant the same drop each other. -/
def doubledRows : List GrantRow :=
  [⟨⟨"ada".toList, .path, "d".toList, "Photos".toList, capView⟩, "m1".toList⟩,
    ⟨⟨"ada".toList, .path, "d".toList, "Photos".toList, capView⟩, "m2".toList⟩]

theorem doubled_rows_lost : (doubledRows.map (·.id)).Nodup ∧ memberAccessRoots doubledRows = [] ∧
    memberCapsOnPath doubledRows "d".toList "Photos".toList = capView ∧
    memberCapsOnPath (memberAccessRoots doubledRows) "d".toList "Photos".toList = 0 := by
  decide +kernel

end LibreServ.Files
