import LibreServ.Access
import LibreServ.TrashGuards

/-! Access to what lies in the trash. As long as a deleted file is guarded, nobody but the owner holds anything on it; a
file from outside every private item answers to the grants of where it was. -/

namespace LibreServ.Files

open FileTree Drive List Option Table

variable {os : Os} {s s' : Drive} {formHash : Text → Text} {x q p : Path} {drive entry : Text} {user : User} {db : Db}

/-! ### What a guard is worth -/

theorem Db.privateCaps_eq_zero {bOwner : Text} {path bPath : Path}
    (howner : bOwner ≠ user.id) (hstate : db.ownerState bOwner ≠ .foreign) (hpath : ¬ bPath <:+ normalized path) :
    db.privateCaps user drive path bPath bOwner = 0 := by
  unfold privateCaps
  split
  · rfl
  rw [if_neg fun h => hstate h.2]
  have hnone : ((db.membersFor user.id).filter fun r => r.subjectKind = .path && r.driveId = drive &&
      (pathContains (normalized r.path) (normalized path) && pathContains bPath (normalized r.path))) = [] := by
    rw [filter_eq_nil_iff]
    intro r _ hr
    rw [Bool.and_eq_true, Bool.and_eq_true, Bool.and_eq_true] at hr
    exact hpath ((isSuffixOf_iff_suffix.mp hr.2.2).trans (isSuffixOf_iff_suffix.mp hr.2.1))
  rw [hnone]
  rfl

theorem isTrashApi_alias (q : Path) (entry : Text) : isTrashApi (q ++ [entry, trashApiAlias]) = true := by
  rw [isTrashApi, getLast?_append_of_ne_nil _ (cons_ne_nil _ _)]
  rfl

theorem Drive.realRel_alias (q : Path) (entry : Text) :
    s.realRel (q ++ [entry, trashApiAlias]) = q ++ [entry, s.layout.trashName] := by
  rw [realRel, if_pos (isTrashApi_alias q entry), dropLast_append_of_ne_nil (cons_ne_nil _ _), append_assoc]
  rfl

theorem trashName_ne_alias (l : Layout) : l.trashName ≠ trashApiAlias := by
  intro h
  have hluna := l.isLunaName_pfx "-trash".toList
  rw [← Layout.trashName, h] at hluna
  exact absurd hluna (by decide)

theorem getLast?_of_suffix (h : p <:+ q) (hne : p ≠ []) : p.getLast? = q.getLast? := by
  obtain ⟨r, rfl⟩ := h
  rw [getLast?_append_of_ne_nil _ hne]

theorem Db.privateBoundary_alias (hdrive : db.drives drive = some s)
    (hneat : normalized (q ++ [entry, trashApiAlias]) = q ++ [entry, trashApiAlias]) :
    db.privateBoundary drive (q ++ [entry, trashApiAlias]) = s.boundaryFor (q ++ [entry, s.layout.trashName]) := by
  rw [privateBoundary, hdrive, hneat]
  exact congrArg s.boundaryFor (realRel_alias q entry)

/-- What a trash path remembers is what its entry remembers. -/
theorem Drive.trashPrivateMeta_alias (q : Path) (entry : Text) : s.trashPrivateMeta (q ++ [entry, trashApiAlias]) =
      (s.trashMeta.get? entry).filter fun m => m.privateOwner ≠ [] := by
  rw [trashPrivateMeta, if_pos (isTrashApi_alias q entry), realRel_alias, trashEntryParts_trash]
  rfl

theorem Drive.trashOriginalPath_alias {found : TrashMeta}
    (hfound : s.trashMeta.get? entry = some found) :
    s.trashOriginalPath (q ++ [entry, trashApiAlias]) = some (q ++ segments found.originalPath) := by
  have htake : (q ++ [entry, trashApiAlias]).take ((q ++ [entry, trashApiAlias]).length - 2) = q := by
    rw [length_append, length_cons, length_singleton, Nat.add_sub_cancel, take_left]
  rw [trashOriginalPath, if_pos (isTrashApi_alias q entry), realRel_alias, trashEntryParts_trash, htake]
  show (s.trashMeta.get? entry).bind _ = _
  rw [hfound]
  rfl

/-- Nobody but the owner holds anything on a guarded file. -/
theorem Drive.Guards.caps {o : Text} (hg : s.Guards o q entry)
    (hdrive : db.drives drive = some s) (howner : user.id ≠ o) (hstate : db.ownerState o ≠ .foreign)
    (hneat : normalized (q ++ [entry, trashApiAlias]) = q ++ [entry, trashApiAlias]) :
    db.capsOnPath user drive (q ++ [entry, trashApiAlias]) = 0 := by
  have hlast : (q ++ [entry, trashApiAlias]).getLast? = some trashApiAlias := by
    rw [getLast?_append_of_ne_nil _ (cons_ne_nil _ _)]
    rfl
  have hlast' : (q ++ [entry, s.layout.trashName]).getLast? = some s.layout.trashName := by
    rw [getLast?_append_of_ne_nil _ (cons_ne_nil _ _)]
    rfl
  rw [Db.capsOnPath, if_pos (isTrashApi_alias q entry), Db.privateBoundary_alias hdrive hneat]
  rcases boundaryFor_cases hg.unsealed with ⟨hnone, hno⟩ | ⟨path, owner, hb, ho, hsuf, hne⟩
  · rcases hg.guard with hrow | ⟨-, ho, found, root, hfound, hsame, hroot, halias⟩
    · rw [hno] at hrow
      cases hrow
    have hmeta : s.trashPrivateMeta (q ++ [entry, trashApiAlias]) = some found := by
      have hkept : decide (found.privateOwner ≠ []) = true := decide_eq_true (hsame ▸ ho)
      rw [trashPrivateMeta_alias, hfound, filter_some, if_pos hkept]
    rw [hnone, hdrive]
    dsimp only [bind_some]
    rw [hmeta]
    refine Db.privateCaps_eq_zero (hsame ▸ howner.symm) (hsame ▸ hstate) ?_
    rw [hneat]
    intro hsuf
    have hne : segments found.privatePath ≠ [] := by
      intro hnil
      rw [hnil] at hroot
      cases hroot
    rw [getLast?_of_suffix hsuf hne, hlast] at hroot
    exact halias (some.inj hroot).symm
  · have hsame : owner = o := by
      rcases hg.guard with hrow | ⟨hnone, -⟩
      · exact some.inj (ho.symm.trans hrow)
      · rw [ho] at hnone
        cases hnone
    rw [hb]
    refine Db.privateCaps_eq_zero (hsame ▸ howner.symm) (hsame ▸ hstate) ?_
    rw [hneat]
    intro hsuf'
    have hroot := (getLast?_of_suffix hsuf hne).symm.trans (getLast?_of_suffix hsuf' hne)
    rw [hlast, hlast'] at hroot
    exact trashName_ne_alias s.layout (some.inj hroot)

/-! ### Into the trash -/

theorem folded_of_canonicalPath {rel : Text} (h : canonicalPath rel = .ok p) : Folded p := by
  obtain ⟨path, -, h⟩ := bind_ok h
  obtain rfl := Except.ok.inj h
  exact folded_segments path

/-- What is deleted lies outside the trash. -/
theorem realRel_of_not_internal {apiRel : Path} (h : isInternalTemp (s.realRel apiRel) = false) :
    s.realRel apiRel = apiRel ∧ isTrashApi apiRel = false := by
  by_cases htrash : isTrashApi apiRel = true
  · have hluna := not_luna_of_not_internal (Bool.not_eq_true _ ▸ h) s.layout.trashName (by
      rw [realRel, if_pos htrash]
      exact mem_append_right _ (mem_singleton_self _))
    rw [Layout.trashName, s.layout.isLunaName_pfx] at hluna
    cases hluna
  · rw [realRel, if_neg htrash]
    exact ⟨rfl, Bool.not_eq_true _ ▸ htrash⟩

theorem Drive.unsealed_of_item {path : Path} {o : Text} (h : s.boundaryFor p = some (.item path o)) :
    s.layout.Unsealed p := by
  by_contra hsealed
  obtain ⟨seg, d, -, -, hb⟩ := boundaryRec_sealed hsealed
  rw [boundaryFor] at h
  split at h
  · cases h
  · rw [hb] at h
    cases h

/-- A private file that is deleted is guarded from then on. -/
theorem Trashed.guards {n o : Text} {dp out path : Path} (ht : Tidy s) (h : Trashed s s' n dp out entry) (hentry : isLunaName entry = false)
    (hfolded : Folded (n :: dp)) (hout : isTrashApi (n :: dp) = false)
    (hprivate : s.boundaryFor (q ++ n :: dp) = some (.item path o)) (ho : o ≠ [])
    (hsame : s.boundaryFor (segments (trashedRel (n :: dp))) = s.boundaryFor (n :: dp)) : s'.Guards o q entry := by
  have hunsealed := unsealed_of_item hprivate
  have howner : s.ownerOver (q ++ n :: dp) = some o := by
    rcases boundaryFor_cases hunsealed with ⟨hnone, -⟩ | ⟨path', o', hb, hover, -⟩
    · rw [hnone] at hprivate
      cases hprivate
    · rw [hb] at hprivate
      obtain ⟨-, rfl⟩ := Boundary.item.inj (some.inj hprivate)
      exact hover
  have hl : s'.layout = s.layout := h.shift.layout
  refine ⟨?_, hentry, ?_⟩
  · rw [hl]
    exact unsealed_in_trash (unsealed_append.mp hunsealed).1 hentry
  · rw [hl]
    rcases ownerOver_moved (h.shift.rows_beneath ht) q with ⟨o', hnew, hold⟩ | ⟨hnew, hold, hplain⟩
    · rw [hnew]
      exact .inl (hold.symm.trans howner)
    -- The private item stays behind, and the entry remembers its owner.
    have htop : s'.ownerOver [s.layout.trashName] = none := by
      rw [← hl, ownerOver_cons_none h.shift.tidy.trash_not_item]
      rfl
    have habove : s.ownerOver (n :: dp) = some o := by
      rw [ownerOver_cons_none hplain]
      exact hold.symm.trans howner
    obtain ⟨path', hb, hsuf, hne⟩ : ∃ path', s.boundaryFor (n :: dp) = some (.item path' o) ∧ path' <:+ n :: dp ∧
        path' ≠ [] := by
      rcases boundaryFor_cases (unsealed_append.mp hunsealed).2 with ⟨-, hnone⟩ | ⟨path', o', hb, hover, hsuf, hne⟩
      · rw [habove] at hnone
        cases hnone
      · obtain rfl := some.inj (habove.symm.trans hover)
        exact ⟨path', hb, hsuf, hne⟩
    obtain ⟨root, hroot⟩ : ∃ root, path'.getLast? = some root := ⟨_, getLast?_eq_some_getLast hne⟩
    refine .inr ⟨hnew.trans htop, ho, originOf (n :: dp) s, root, ?_, ?_, ?_, ?_⟩
    · rw [h.origins, get?_put_self]
    · rw [originOf, hsame, hb]
      rfl
    · rw [originOf, hsame, hb]
      show (segments (spelled path')).getLast? = some root
      rw [segments_spelled (hfolded.of_suffix hsuf), hroot]
    · rintro rfl
      rw [getLast?_of_suffix hsuf hne] at hroot
      rw [isTrashApi, hroot] at hout
      cases hout

/-! ### Grants -/

/-- No bit that the other does not have. -/
def Within (a b : Caps) : Prop := ∀ i, a.getLsbD i = true → b.getLsbD i = true

theorem Db.getLsbD_union (rows : List AccessMember) (i : Nat) :
    (union rows).getLsbD i = rows.any fun r => r.caps.getLsbD i := by
  have hfold : ∀ (rows : List AccessMember) (caps : Caps),
      (rows.foldl (fun caps r => caps ||| r.caps) caps).getLsbD i = (caps.getLsbD i || rows.any fun r => r.caps.getLsbD i) := by
    intro rows
    induction rows with
    | nil =>
      intro caps
      rw [foldl_nil, any_nil, Bool.or_false]
    | cons r rows ih =>
      intro caps
      rw [foldl_cons, ih, BitVec.getLsbD_or, any_cons, Bool.or_assoc]
  have hzero : (0 : Caps).getLsbD i = false := BitVec.getLsbD_zero
  rw [union, hfold, hzero, Bool.false_or]

/-- More rows give no less. -/
theorem Db.union_within {rows rows' : List AccessMember} (h : ∀ r ∈ rows, r ∈ rows') :
    Within (union rows) (union rows') := by
  intro i hi
  rw [getLsbD_union, List.any_eq_true] at hi ⊢
  obtain ⟨r, hr, hbit⟩ := hi
  exact ⟨r, h r hr, hbit⟩

namespace Drive

theorem nearest_ok {d : Path} (h : s.nearest x = .ok d) : ∃ y, y <:+ x ∧ s.resolveChild y = .ok d := by
  induction x with
  | nil => exact ⟨[], suffix_refl _, h⟩
  | cons seg rest ih =>
    rw [nearest] at h
    split at h
    · obtain ⟨y, hy, hres⟩ := ih h
      exact ⟨y, hy.trans (suffix_cons seg rest), hres⟩
    · exact ⟨seg :: rest, suffix_refl _, h⟩

theorem Tidy.resolveChild_stands (ht : Tidy s) (hx : s.layout.Unsealed x)
    {e : Entry (List UInt8)} (he : s.disk.get? (s.diskIn x) = some e) (hlink : e ≠ .link) :
    s.resolveChild x = .ok (s.diskIn x) := by
  have hsame : s.resolvedOk x (s.diskIn x) = true := by
    rw [resolvedOk, ht.logicalIn_diskIn hx, decide_eq_true (Eq.refl _), Bool.or_true]
  rw [resolveChild]
  split
  · rename_i hnil
    rw [hnil]
    rfl
  · rw [he]
    cases e with
    | link => exact absurd rfl hlink
    | file f | dir => rfl

/-- A grant on a folder covers every file in it. -/
theorem Tidy.grant_covers (ht : Tidy s) {g : Path} {b : List UInt8} (hx : s.layout.Unsealed x)
    (hfile : s.disk.get? (s.diskIn x) = some (.file b)) (hg : g <:+ x) : s.grantCoversCanonical g x = true := by
  have hdisk : s.diskIn g <:+ s.diskIn x := diskIn_suffix hg
  have hgrant : s.resolveChild g = .ok (s.diskIn g) := by
    by_cases hsame : g = x
    · rw [hsame]
      exact ht.resolveChild_stands hx hfile (fun h => (nomatch h))
    have hne : s.diskIn g ≠ s.diskIn x := fun heq => hsame (ht.diskIn_inj (hx.of_suffix hg) hx heq)
    rcases ht.grown.dir_above hfile hdisk hne with hroot | hdir
    · have hnil : g = [] := eq_nil_of_length_eq_zero (by rw [← length_diskIn (s := s), hroot]; rfl)
      rw [hnil]
      rfl
    · exact ht.resolveChild_stands (hx.of_suffix hg) hdir (fun h => (nomatch h))
  have hnearest : s.nearest x = .ok (s.diskIn x) := by
    have hres := ht.resolveChild_stands hx hfile (fun h => (nomatch h))
    cases x with
    | nil => exact hres
    | cons seg rest => rw [nearest, hres]
  rw [grantCoversCanonical, hgrant, hnearest]
  exact isSuffixOf_iff_suffix.mpr hdisk

/-- Where no private item is, a grant covers nothing outside its own folder. -/
theorem Tidy.suffix_of_grant (ht : Tidy s) {g : Path} (hnone : ∀ p, p <:+ x → p ≠ [] → s.items.get? p = none)
    (h : s.grantCoversCanonical g x = true) : g <:+ x := by
  rw [grantCoversCanonical] at h
  cases hnearest : s.nearest x with
  | error e =>
    rw [hnearest] at h
    cases h
  | ok d =>
    obtain ⟨y, hy, hres⟩ := nearest_ok hnearest
    obtain ⟨rfl, hunsealed, -⟩ := ht.resolveChild_ok hres
    have hsame : s.diskIn y = y := diskIn_of_no_items fun p hp hne => hnone p (hp.trans hy) hne
    rw [hnearest, isSuffixOf_iff_suffix] at h
    cases hgrant : s.resolveChild g with
    | error e =>
      rw [hgrant, hsame] at h
      exact h.trans hy
    | ok p =>
      obtain ⟨rfl, hg, -⟩ := ht.resolveChild_ok hgrant
      rw [hgrant] at h
      exact (ht.suffix_of_diskIn hg hunsealed h).trans hy

end Drive

/-! ### Blanks at the ends of a path -/

theorem folded_normalized (p : Path) : Folded (normalized p) := folded_segments _

/-- A folded path is looked up as it is exactly if it neither starts nor ends with a blank. -/
theorem normalized_eq_self_iff (hf : Folded p) :
    normalized p = p ↔ (∀ ch ∈ p.getLast?.bind head?, isWhitespace ch = false) ∧
      ∀ ch ∈ p.head?.bind getLast?, isWhitespace ch = false := by
  have hfolded : Folded p.reverse := fun seg hseg => hf seg (mem_reverse.mp hseg)
  have hedges : (spelled p).head? = p.getLast?.bind head? ∧ (spelled p).getLast? = p.head?.bind getLast? := by
    rw [spelled, hfolded.head?_join, hfolded.getLast?_join, head?_reverse, getLast?_reverse]
    exact ⟨rfl, rfl⟩
  rw [← hedges.1, ← hedges.2]
  constructor
  · intro hsame
    have hagain : canonical (trim (spelled p)) = spelled p := by
      have := congrArg spelled hsame
      rw [normalized, spelled_segments, normalizeSubjectPath_eq] at this
      exact (folded_filter (trim (spelled p))).canonical_join.symm.trans this
    have hlong := (canonical_sublist (trim (spelled p))).length_le
    rw [hagain] at hlong
    exact edges_of_trimMatches ((trimMatches_sublist _ _).eq_of_length_le hlong)
  · rintro ⟨hhead, hlast⟩
    have htrim : trim (spelled p) = spelled p := trimMatches_eq_self hhead hlast
    rw [normalized, normalizeSubjectPath_eq, htrim, spelled, hfolded.canonical_join]
    exact segments_spelled hf

theorem trashEntryName_ends (now j : Nat) (n : Text) :
    ∃ lead : Text, lead ≠ [] ∧ (∀ ch ∈ lead, Char.isDigit ch = true ∨ ch = '-') ∧ trashEntryName now j n = lead ++ n := by
  have hdigits : ∀ k : Nat, ∀ ch ∈ Nat.toDigits 10 k, Char.isDigit ch = true := fun k ch hch =>
    Nat.isDigit_of_mem_toDigits (by decide) (by decide) hch
  unfold trashEntryName
  split
  · refine ⟨Nat.toDigits 10 now ++ ['-'], by simp, fun ch hch => ?_, by simp⟩
    rcases mem_append.mp hch with hch | hch
    · exact .inl (hdigits now ch hch)
    · exact .inr (mem_singleton.mp hch)
  · refine ⟨Nat.toDigits 10 now ++ '-' :: Nat.toDigits 10 j ++ ['-'], by simp, fun ch hch => ?_, by simp⟩
    rcases mem_append.mp hch with hch | hch
    · rcases mem_append.mp hch with hch | hch
      · exact .inl (hdigits now ch hch)
      · rcases mem_cons.mp hch with hch | hch
        · exact .inr hch
        · exact .inl (hdigits j ch hch)
    · exact .inr (mem_singleton.mp hch)

/-- A path without blanks at its ends has none in the trash. -/
theorem normalized_trashed {n : Text} {dp : Path} (now j : Nat) (h : normalized (q ++ n :: dp) = q ++ n :: dp) :
    normalized (q ++ [trashEntryName now j n, trashApiAlias]) = q ++ [trashEntryName now j n, trashApiAlias] := by
  have hfolded : Folded (q ++ n :: dp) := h ▸ folded_normalized _
  have hn : n ≠ [] := hfolded.ne_nil (mem_append_right _ mem_cons_self)
  obtain ⟨lead, hlead, hchars, hname⟩ := trashEntryName_ends now j n
  have hentry : kept (lead ++ n) = true ∧ '/' ∉ lead ++ n := by
    have hlong : 2 ≤ (lead ++ n).length := by
      have := length_pos_iff.mpr hlead
      have := length_pos_iff.mpr hn
      rw [length_append]
      omega
    refine ⟨?_, fun hmem => ?_⟩
    · have hne : lead ++ n ≠ ['.'] := by
        intro heq
        rw [heq] at hlong
        exact absurd hlong (by decide)
      simp [kept, hne, hlead]
    · rcases mem_append.mp hmem with hmem | hmem
      · exact absurd (hchars '/' hmem) (by decide)
      · exact (hfolded n (mem_append_right _ mem_cons_self)).2 hmem
  have hfolded' : Folded (q ++ [lead ++ n, trashApiAlias]) := by
    intro seg hseg
    rcases mem_append.mp hseg with hseg | hseg
    · exact hfolded seg (mem_append_left _ hseg)
    · rcases mem_cons.mp hseg with rfl | hseg
      · exact hentry
      · rw [mem_singleton.mp hseg]
        decide
  rw [hname, normalized_eq_self_iff hfolded']
  rw [normalized_eq_self_iff hfolded] at h
  refine ⟨fun ch hch => ?_, fun ch hch => h.2 ch ?_⟩
  · rw [getLast?_append_of_ne_nil _ (cons_ne_nil _ _)] at hch
    obtain rfl : '.' = ch := some.inj hch
    decide
  · cases q with
    | nil =>
      have hends : (lead ++ n).getLast? = n.getLast? := getLast?_append_of_ne_nil _ hn
      rw [nil_append, head?_cons, bind_some] at hch ⊢
      rwa [hends] at hch
    | cons seg q => exact hch

/-! ### Outside every private item -/

theorem Drive.ownerOver_eq_none_iff :
    s.ownerOver x = none ↔ ∀ p, p <:+ x → p ≠ [] → s.items.get? p = none := by
  induction x with
  | nil => exact ⟨fun _ p hp hne => absurd (suffix_nil.mp hp) hne, fun _ => rfl⟩
  | cons seg d ih =>
    constructor
    · intro h p hp hne
      cases hget : s.items.get? (seg :: d) with
      | some item =>
        rw [ownerOver_cons_some hget] at h
        cases h
      | none =>
        rw [ownerOver_cons_none hget] at h
        rcases suffix_cons_iff.mp hp with rfl | hp
        · exact hget
        · exact ih.mp h p hp hne
    · intro h
      rw [ownerOver_cons_none (h _ (suffix_refl _) (cons_ne_nil _ _))]
      exact ih.mpr fun p hp => h p (hp.trans (suffix_cons seg d))

theorem Drive.boundaryFor_eq_none_iff (hx : s.layout.Unsealed x) :
    s.boundaryFor x = none ↔ ∀ p, p <:+ x → p ≠ [] → s.items.get? p = none := by
  rw [← ownerOver_eq_none_iff]
  rcases boundaryFor_cases hx with ⟨hb, ho⟩ | ⟨path, owner, hb, ho, -⟩
  · rw [hb, ho]
    exact ⟨fun _ => rfl, fun _ => rfl⟩
  · rw [hb, ho]
    exact ⟨fun h => (nomatch h), fun h => (nomatch h)⟩

/-- What stands outside every private item has a path without a name on disk. -/
theorem Drive.Tidy.unsealed_of_plain (ht : Tidy s) {e : Entry (List UInt8)}
    (he : s.disk.get? (s.diskIn x) = some e) (hplain : s.boundaryFor x = none) : s.layout.Unsealed x := by
  by_contra hsealed
  obtain ⟨seg, d, hsuf, hname, hb⟩ := boundaryRec_sealed hsealed
  have hrows : s.items.rows = [] := by
    by_contra hrows
    rw [boundaryFor, if_neg hrows, hb] at hplain
    cases hplain
  have hempty : ∀ p, s.items.get? p = none := by
    intro p
    rw [eq_none_iff_forall_ne_some]
    intro item hitem
    have hmem := mem_rows.mpr hitem
    rw [hrows] at hmem
    cases hmem
  have hdisk : s.diskIn (seg :: d) <:+ s.diskIn x := diskIn_suffix hsuf
  rw [diskIn_cons_none (hempty _)] at hdisk
  obtain ⟨e', he'⟩ := ht.grown.taken_above he hdisk (cons_ne_nil _ _)
  obtain ⟨p, item, hp, -⟩ := ht.rowed seg _ e' he' hname
  rw [hempty] at hp
  cases hp

theorem Db.privateBoundary_outside (hdrive : db.drives drive = some s)
    (hneat : normalized x = x) (hx : isTrashApi x = false) : db.privateBoundary drive x = s.boundaryFor x := by
  have hreal : s.realRel x = x := by rw [realRel, hx, if_neg Bool.false_ne_true]
  rw [privateBoundary, hdrive, hneat]
  show s.boundaryFor (s.realRel x) = _
  rw [hreal]

/-- Outside the trash and every private item, admins manage and others hold what grants give them. -/
theorem Db.plainCaps_outside (hdrive : db.drives drive = some s)
    (hneat : normalized x = x) (hx : isTrashApi x = false) (hplain : s.boundaryFor x = none) :
    db.plainCaps user drive x = if user.isAdmin then capManage else db.memberRowCaps user drive x := by
  rw [plainCaps, privateBoundary_outside hdrive hneat hx, hplain]

theorem Db.capsOnPath_outside (hx : isTrashApi x = false) :
    db.capsOnPath user drive x = db.plainCaps user drive x := by
  rw [capsOnPath, hx, if_neg Bool.false_ne_true]

/-- Grants that are there before give no less, where they cover no less. -/
theorem Db.memberRowCaps_within {before after : Db}
    (hbefore : before.drives drive = some s) (hafter : after.drives drive = some s')
    (hmembers : ∀ r ∈ after.members, r ∈ before.members)
    (hcovers : ∀ g, s'.grantCoversCanonical g (normalized x) = true → s.grantCoversCanonical g (normalized x) = true) :
    Within (after.memberRowCaps user drive x) (before.memberRowCaps user drive x) := by
  refine union_within fun r hr => ?_
  obtain ⟨hmem, hr⟩ := mem_filter.mp hr
  obtain ⟨hmem, huser⟩ := mem_filter.mp hmem
  simp only [hafter, Bool.and_eq_true] at hr
  refine mem_filter.mpr ⟨mem_filter.mpr ⟨hmembers r hmem, huser⟩, ?_⟩
  simp only [hbefore, Bool.and_eq_true]
  exact ⟨hr.1, hr.2.1, hcovers _ hr.2.2⟩

/-- A file that was deleted outside every private item answers to the grants of where it was. -/
theorem Trashed.caps_within {disk : Tree Text (List UInt8)} {now j : Nat} {n : Text} {dp out : Path} (ht : Tidy s)
    (hmade : Tree.mkdirs [s.layout.trashName] s.disk = some disk)
    (h : Trashed { s with disk := disk } s' n dp out (trashEntryName now j n))
    (hreserved : isInternalTemp (n :: dp) = false) (hout : isTrashApi (n :: dp) = false) {b : List UInt8}
    (hfile : s.disk.get? (s.diskIn (q ++ n :: dp)) = some (.file b)) (hplain : s.boundaryFor (q ++ n :: dp) = none)
    (hneat : normalized (q ++ n :: dp) = q ++ n :: dp) (hrel : segments (trashedRel (n :: dp)) = n :: dp)
    {before after : Db} (user : User) (hbefore : before.drives drive = some s)
    (hafter : after.drives drive = some s') (hmembers : ∀ r ∈ after.members, r ∈ before.members) :
    Within (after.capsOnPath user drive (q ++ [trashEntryName now j n, trashApiAlias]))
      (before.capsOnPath user drive (q ++ n :: dp)) := by
  have ht₁ := ht.mkdirs_trash hmade
  have hunsealed := ht.unsealed_of_plain hfile hplain
  have hnone := (boundaryFor_eq_none_iff hunsealed).mp hplain
  have hl : s'.layout = s.layout := h.shift.layout
  -- Nothing private was above the file, and nothing is now, at either path.
  have hgone : ∀ p, p <:+ q ++ n :: dp → p ≠ [] → s'.items.get? p = none := by
    intro p hp hne
    rw [eq_none_iff_forall_ne_some]
    intro item hitem
    rw [h.shift.items] at hitem
    rcases h.shift.movable.row_cases ht₁ hitem with ⟨hold, -, -⟩ | ⟨r, rfl, -⟩
    · have := hnone p hp hne
      rw [show s.items.get? p = some item from hold] at this
      cases this
    have hlast := getLast?_of_suffix hp hne
    rw [getLast?_append_of_ne_nil _ (cons_ne_nil _ _), getLast?_append_of_ne_nil _ (cons_ne_nil _ _)] at hlast
    have hluna := not_luna_of_not_internal (Bool.not_eq_true _ ▸ hreserved) s.layout.trashName
      (mem_of_getLast? hlast.symm)
    rw [Layout.trashName, s.layout.isLunaName_pfx] at hluna
    cases hluna
  have hunsealed' : s'.layout.Unsealed (q ++ [trashEntryName now j n, s'.layout.trashName]) := by
    rw [hl]
    exact unsealed_in_trash (unsealed_append.mp hunsealed).1 (isLunaName_trashEntryName now j n)
  have hfree : s'.boundaryFor (q ++ [trashEntryName now j n, s'.layout.trashName]) = none := by
    rw [boundaryFor_eq_none_iff hunsealed', ← ownerOver_eq_none_iff, hl]
    have hold : Drive.ownerOver { s with disk := disk } (q ++ n :: dp) = none := ownerOver_eq_none_iff.mpr hnone
    rcases ownerOver_moved (h.shift.rows_beneath ht₁) q with ⟨o, -, hsome⟩ | ⟨hnew, -, -⟩
    · rw [hold] at hsome
      cases hsome
    · refine hnew.trans ?_
      show s'.ownerOver [s.layout.trashName] = none
      rw [← hl, ownerOver_cons_none h.shift.tidy.trash_not_item]
      rfl
  have horigin : s'.trashMeta.get? (trashEntryName now j n) = some ⟨trashedRel (n :: dp), [], []⟩ := by
    have hno : Drive.boundaryFor { s with disk := disk } (segments (trashedRel (n :: dp))) = none := by
      rw [hrel, boundaryFor_eq_none_iff (s := { s with disk := disk }) (unsealed_append.mp hunsealed).2]
      exact fun p hp hne => hnone p (hp.trans (suffix_append q _)) hne
    rw [h.origins, get?_put_self, originOf, hno]
    rfl
  have hneat' := normalized_trashed now j hneat
  have hcaps : after.capsOnPath user drive (q ++ [trashEntryName now j n, trashApiAlias]) =
      after.plainCaps user drive (q ++ n :: dp) := by
    rw [Db.capsOnPath, if_pos (isTrashApi_alias _ _), Db.privateBoundary_alias hafter hneat', hfree, hafter]
    dsimp only [bind_some]
    rw [trashPrivateMeta_alias, trashOriginalPath_alias horigin, horigin, hrel]
    rfl
  have hapi : isTrashApi (q ++ n :: dp) = false := by
    rw [← hout, isTrashApi, isTrashApi, getLast?_append_of_ne_nil _ (cons_ne_nil _ _)]
  have hgone' : s'.boundaryFor (q ++ n :: dp) = none := (boundaryFor_eq_none_iff (hl ▸ hunsealed)).mpr hgone
  rw [hcaps, Db.capsOnPath_outside hapi, Db.plainCaps_outside hafter hneat hapi hgone',
    Db.plainCaps_outside hbefore hneat hapi hplain]
  split
  · exact fun _ hi => hi
  · refine Db.memberRowCaps_within hbefore hafter hmembers fun g hg => ?_
    rw [hneat] at hg ⊢
    exact ht.grant_covers hunsealed hfile (h.shift.tidy.suffix_of_grant hgone hg)

/-! ### The trash never widens access -/

/-- A path that leads into the trash names its entry. -/
theorem Drive.eq_of_realRel {y : Path} (hy : isTrashApi y = true)
    (h : s.realRel y = q ++ [entry, s.layout.trashName]) : y = q ++ [entry, trashApiAlias] := by
  rw [isTrashApi, decide_eq_true_eq] at hy
  obtain ⟨init, rfl⟩ := getLast?_eq_some_iff.mp hy
  have hapi : isTrashApi (init ++ [trashApiAlias]) = true := by
    rw [isTrashApi, getLast?_concat]
    exact decide_eq_true rfl
  have hsplit : q ++ [entry, s.layout.trashName] = (q ++ [entry]) ++ [s.layout.trashName] := by simp
  rw [realRel, if_pos hapi, dropLast_concat, hsplit] at h
  rw [append_cancel_right h, append_assoc]
  rfl

/-- **Trash never widens access.** A file at or beneath the path that is deleted, in a private item: nobody but the
owner holds more on it than before, wherever in the trash it goes. A file outside every private item: nobody holds more
on it right after. -/
theorem trash_never_widens {now : Nat} {rel : Text} {apiRel q out : Path} {b : List UInt8} (hw : s.WellFormed)
    (hs : s.InStep) (hapi : canonicalPath rel = .ok apiRel) (hclean : s.DeleteClean (s.realRel apiRel))
    (hdelete : deleteToTrash os formHash now rel s = .ok (out, s'))
    (hfile : s.disk.get? (s.diskIn (q ++ s.realRel apiRel)) = some (.file b)) {before : Db} {drive : Text}
    (hbefore : before.drives drive = some s) (user : User) :
    (∀ path o, s.boundaryFor (q ++ s.realRel apiRel) = some (.item path o) → o ≠ [] →
      s.boundaryFor (segments (trashedRel (s.realRel apiRel))) = s.boundaryFor (s.realRel apiRel) →
      ∀ calls s₂ x y, Followed formHash b calls s' (s'.realRel (q ++ out)) s₂ x → isTrashApi y = true →
      s₂.realRel y = x → normalized y = y → ∀ after : Db, after.drives drive = some s₂ →
      after.ownerState o ≠ .foreign → user.id ≠ o →
      Within (after.capsOnPath user drive y) (before.capsOnPath user drive (q ++ s.realRel apiRel))) ∧
    (s.boundaryFor (q ++ s.realRel apiRel) = none → normalized (q ++ s.realRel apiRel) = q ++ s.realRel apiRel →
      segments (trashedRel (s.realRel apiRel)) = s.realRel apiRel → ∀ after : Db, after.drives drive = some s' →
      (∀ r ∈ after.members, r ∈ before.members) →
      Within (after.capsOnPath user drive (q ++ out)) (before.capsOnPath user drive (q ++ s.realRel apiRel))) := by
  have ht := hs.tidy hw
  obtain ⟨apiRel', n, dp, disk, j, hapi', hrel, hreserved, hmade, htrashed⟩ :=
    deleteToTrash_trashed ht hdelete fun p hp => (Except.ok.inj (hp.symm.trans hapi)) ▸ hclean
  obtain rfl := Except.ok.inj (hapi'.symm.trans hapi)
  obtain ⟨hsame, hout⟩ := realRel_of_not_internal (hrel ▸ hreserved)
  rw [hrel] at hsame hfile ⊢
  subst hsame
  have ht₁ := ht.mkdirs_trash hmade
  have hl : s'.layout = s.layout := htrashed.shift.layout
  have hrows : ∀ p, Drive.boundaryFor { s with disk := disk } p = s.boundaryFor p := fun p =>
    boundaryFor_congr rfl rfl
  rw [htrashed.out]
  constructor
  · intro path o hprivate ho hblank calls s₂ x y hfollowed hy hyx hneat after hafter hstate hother
    have hg : s'.Guards o q (trashEntryName now j (entryTitle n dp s)) :=
      htrashed.guards ht₁ (isLunaName_trashEntryName _ _ _) (folded_of_canonicalPath hapi) hout (hrows _ ▸ hprivate) ho
        (by rw [hrows, hrows, hblank])
    obtain ⟨-, q₂, entry₂, rfl, hg₂⟩ := hfollowed.guards (realRel_alias q _) htrashed.shift.tidy hg
    obtain rfl := eq_of_realRel hy hyx
    rw [hg₂.caps hafter hother hstate hneat]
    intro i hi
    rw [show (0 : Caps).getLsbD i = false from BitVec.getLsbD_zero] at hi
    cases hi
  · intro hplain hneat hblank after hafter hmembers
    have hnone := (boundaryFor_eq_none_iff (ht.unsealed_of_plain hfile hplain)).mp hplain
    have htitle : entryTitle n dp s = n := by
      have hleaf : s.diskLeaf (n :: dp) = none :=
        diskLeaf_none (hnone _ (suffix_append q _) (cons_ne_nil _ _))
      rw [entryTitle, hleaf]
      rfl
    rw [htitle] at htrashed ⊢
    exact htrashed.caps_within ht hmade hreserved hout hfile hplain hneat hblank user hbefore hafter hmembers

/-! ### A diary that stays private, and answers that do not -/

deriving instance DecidableEq for Boundary

theorem eq_ok_of_isOk {ε α : Type} {x : Except ε α} (d : α) (h : x.isOk = true) : x = .ok (x.toOption.getD d) := by
  cases x with
  | ok a => rfl
  | error e => cases h

def shortHash : Text → Text := fun _ => "0a1b2c3d".toList

/-- A private folder with a diary and a form with answers in it, and a note beside it. -/
def secretCalls : List (Env × Call) :=
  [(calmEnv, .mkdirAs "secret".toList (some "ann".toList)), (calmEnv, .create "secret/diary".toList),
    (calmEnv, .create "secret/x.lunaform".toList), (calmEnv, .create "secret/.x.lunaform.responses".toList),
    (calmEnv, .create "note".toList)]

def secretDrive : Drive := (runCalls shortHash secretCalls freshDrive).toOption.getD freshDrive

theorem secretDrive_tidy : Tidy secretDrive := by
  have hcalls : (runCalls shortHash secretCalls freshDrive).isOk = true ∧ CleanRun shortHash secretCalls freshDrive := by
    decide +kernel
  exact runCalls_tidy (freshDrive_inStep.tidy freshDrive_wellFormed) hcalls.2 (eq_ok_of_isOk freshDrive hcalls.1)

/-- What `deleteToTrash` leaves of it. -/
def afterDelete (rel : Text) : Path × Drive :=
  (deleteToTrash calmEnv.os shortHash calmEnv.now rel secretDrive).toOption.getD ([], secretDrive)

theorem afterDelete_run {rel : Text}
    (h : (deleteToTrash calmEnv.os shortHash calmEnv.now rel secretDrive).isOk = true) :
    deleteToTrash calmEnv.os shortHash calmEnv.now rel secretDrive = .ok ((afterDelete rel).1, (afterDelete rel).2) :=
  eq_ok_of_isOk _ h

/-- The household with the drive as it is then. -/
def household (d : Drive) : Db where
  users := [⟨"ann".toList, "user"⟩, ⟨"bob".toList, "admin"⟩]
  deletedUsers := []
  members := []
  drives := fun _ => some d

def bob : User := ⟨"bob".toList, "admin"⟩

/-- The diary's entry gets another name in the trash. -/
def renameEntry : Call := .rename ".luna-trash/5-diary".toList "old diary".toList

def diaryRenamed : Drive := (renameEntry.run shortHash calmEnv (afterDelete "secret/diary".toList).2).toOption.getD freshDrive

theorem diary_followed : Followed shortHash [] [(calmEnv, renameEntry)] (afterDelete "secret/diary".toList).2
    ["5-diary".toList, freshLayout.trashName] diaryRenamed ["5-old diary".toList, freshLayout.trashName] := by
  have hfacts : (afterDelete "secret/diary".toList).2.disk.get?
        ((afterDelete "secret/diary".toList).2.diskIn ["5-diary".toList, freshLayout.trashName]) = some (.file []) ∧
      renameEntry.Clean (afterDelete "secret/diary".toList).2 ∧
      (renameEntry.run shortHash calmEnv (afterDelete "secret/diary".toList).2).isOk = true ∧
      renameEntry.source (afterDelete "secret/diary".toList).2 = some ["5-diary".toList, freshLayout.trashName] ∧
      diaryRenamed.disk.get? (diaryRenamed.diskIn ["5-old diary".toList, freshLayout.trashName]) = some (.file []) := by
    decide +kernel
  obtain ⟨hfile, hclean, hrun, hsource, hfile'⟩ := hfacts
  exact .step calmEnv renameEntry [] _ diaryRenamed _ _ ["5-old diary".toList, freshLayout.trashName] _ hfile hclean
    (eq_ok_of_isOk _ hrun) (.along _ _ "5-diary".toList [freshLayout.trashName] [] hsource) (.here _ _ hfile')

theorem secret_stays_secret :
    Within ((household diaryRenamed).capsOnPath bob [] ["5-old diary".toList, trashApiAlias])
      ((household secretDrive).capsOnPath bob [] ["diary".toList, "secret".toList]) ∧
    Within ((household (afterDelete "note".toList).2).capsOnPath bob [] ["5-note".toList, trashApiAlias])
      ((household secretDrive).capsOnPath bob [] ["note".toList]) := by
  have hdiary : canonicalPath "secret/diary".toList = .ok ["diary".toList, "secret".toList] := by decide
  have hnote : canonicalPath "note".toList = .ok ["note".toList] := by decide
  have hw := secretDrive_tidy.toWellFormed
  have hs := secretDrive_tidy.inStep
  have hbefore : (household secretDrive).drives [] = some secretDrive := rfl
  constructor
  · have hfacts : secretDrive.DeleteClean ["diary".toList, "secret".toList] ∧
        (deleteToTrash calmEnv.os shortHash calmEnv.now "secret/diary".toList secretDrive).isOk = true ∧
        secretDrive.disk.get? (secretDrive.diskIn ["diary".toList, "secret".toList]) = some (.file []) ∧
        secretDrive.boundaryFor ["diary".toList, "secret".toList] = some (.item ["secret".toList] "ann".toList) ∧
        secretDrive.boundaryFor (segments (trashedRel ["diary".toList, "secret".toList])) =
          secretDrive.boundaryFor ["diary".toList, "secret".toList] ∧
        (afterDelete "secret/diary".toList).2.realRel ([] ++ (afterDelete "secret/diary".toList).1) =
          ["5-diary".toList, freshLayout.trashName] ∧
        diaryRenamed.realRel ["5-old diary".toList, trashApiAlias] = ["5-old diary".toList, freshLayout.trashName] := by
      decide +kernel
    obtain ⟨hclean, hdelete, hfile, hprivate, hblank, hplace, hplace'⟩ := hfacts
    have hfollowed := diary_followed
    exact (trash_never_widens hw hs hdiary hclean (afterDelete_run hdelete) (q := []) hfile hbefore bob).1 _ _ hprivate
      (by decide) hblank _ _ _ _ hfollowed (by decide) hplace' (by decide +kernel) (household diaryRenamed) rfl (by decide)
      (by decide)
  · have hfacts : secretDrive.DeleteClean ["note".toList] ∧
        (deleteToTrash calmEnv.os shortHash calmEnv.now "note".toList secretDrive).isOk = true ∧
        secretDrive.disk.get? (secretDrive.diskIn ["note".toList]) = some (.file []) ∧
        secretDrive.boundaryFor ["note".toList] = none ∧ normalized ["note".toList] = ["note".toList] ∧
        segments (trashedRel ["note".toList]) = ["note".toList] ∧
        [] ++ (afterDelete "note".toList).1 = ["5-note".toList, trashApiAlias] := by
      decide +kernel
    obtain ⟨hclean, hdelete, hfile, hplain, hneat, hblank, hplace⟩ := hfacts
    have hwithin := (trash_never_widens hw hs hnote hclean (afterDelete_run hdelete) (q := []) hfile hbefore bob).2 hplain
      hneat hblank (household (afterDelete "note".toList).2) rfl (fun r hr => (nomatch hr))
    rw [hplace] at hwithin
    exact hwithin

/-- The answers of a form leave a private folder with it when it is deleted. Nothing guards them in the trash. -/
theorem answers_shown_in_trash :
    (secretDrive.boundaryFor [".x.lunaform.responses".toList, "secret".toList]).map Boundary.owner = some "ann".toList ∧
      (household secretDrive).ownerState "ann".toList = .active ∧ bob.id ≠ "ann".toList ∧
      secretDrive.disk.get? (secretDrive.diskIn [".x.lunaform.responses".toList, "secret".toList]) = some (.file []) ∧
      ∃ out s', deleteToTrash calmEnv.os shortHash calmEnv.now "secret/x.lunaform".toList secretDrive = .ok (out, s') ∧
        s'.disk.get? (s'.diskIn [".x.lunaform.responses".toList, "secret".toList]) = none ∧
        s'.disk.get? [formDirName shortHash freshLayout [] ++ ".responses".toList, freshLayout.trashName] = some (.file []) ∧
        ¬ Within ((household s').capsOnPath bob [] [formDirName shortHash freshLayout [] ++ ".responses".toList, trashApiAlias])
          ((household secretDrive).capsOnPath bob [] [".x.lunaform.responses".toList, "secret".toList]) := by
  have hbefore : (secretDrive.boundaryFor [".x.lunaform.responses".toList, "secret".toList]).map Boundary.owner =
        some "ann".toList ∧
      secretDrive.disk.get? (secretDrive.diskIn [".x.lunaform.responses".toList, "secret".toList]) = some (.file []) ∧
      ((household secretDrive).capsOnPath bob [] [".x.lunaform.responses".toList, "secret".toList]).getLsbD 0 = false := by
    decide +kernel
  have hafter : (deleteToTrash calmEnv.os shortHash calmEnv.now "secret/x.lunaform".toList secretDrive).isOk = true ∧
      (afterDelete "secret/x.lunaform".toList).2.disk.get?
        ((afterDelete "secret/x.lunaform".toList).2.diskIn [".x.lunaform.responses".toList, "secret".toList]) = none ∧
      (afterDelete "secret/x.lunaform".toList).2.disk.get?
        [formDirName shortHash freshLayout [] ++ ".responses".toList, freshLayout.trashName] = some (.file []) ∧
      ((household (afterDelete "secret/x.lunaform".toList).2).capsOnPath bob []
        [formDirName shortHash freshLayout [] ++ ".responses".toList, trashApiAlias]).getLsbD 0 = true := by
    decide +kernel
  refine ⟨hbefore.1, by decide, by decide, hbefore.2.1, _, _, afterDelete_run hafter.1, hafter.2.1, hafter.2.2.1,
    fun hwithin => ?_⟩
  have hbit := hwithin 0 hafter.2.2.2
  cases hbit

end LibreServ.Files
