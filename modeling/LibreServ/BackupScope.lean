import LibreServ.TrashAccess

/-! What a drive backup copies (`backup/scope.rs`) and who may see it. The walk goes by names on disk: a name of Luna's
is left out, so private items below the source are, except inside the files folder of a form that is copied too. Live
access goes by real paths. The files of a walk and their real paths are brought together here. -/

namespace LibreServ.Files

open FileTree Drive List

variable {db : Db} {row : ProtectionRow} {src source : Path} {e : ScopeEntry}

/-! ### The walk -/

/-- One file a backup should copy. `rel` is spelled from the source, `abs` is its path on disk. -/
structure ScopeEntry where
  rel : Text
  abs : Path
  size : Nat
  deriving DecidableEq

/-- The hex tag of a `<luna-prefix>-form-<16 hex>` folder name. -/
def formFolderTag (segment : Text) : Option Text := do
  let p ← extractPrefix segment
  let rest := segment.drop p.length
  if "-form-".toList.isPrefixOf rest then
    let tag := rest.drop 6
    if tag.length = 16 ∧ tag.all isHexDigit then some tag else none
  else none

def scopeJoin (relDir name : Text) : Text := if relDir = [] then name else relDir ++ '/' :: name

section Walk

variable (formHash : Text → Text) (t : Tree Text (List UInt8))

/-- The hashes of the regular files of a folder that everyone sees. -/
def visibleTags (kids : List (Text × Entry (List UInt8))) : List Text :=
  (kids.filter fun kid => !isLunaName kid.1 && match kid.2 with
    | .file _ => true
    | _ => false).map fun kid => formHash kid.1

/-- The files in `dir`. Once a form's files folder is walked, everything in it travels with the form. -/
def walkDir : Nat → Path → Text → Bool → List ScopeEntry
  | 0, _, _, _ => []
  | k + 1, dir, relDir, insideForm =>
    let kids := t.children dir
    let tags := if insideForm then [] else visibleTags formHash kids
    kids.flatMap fun kid =>
      let rel := scopeJoin relDir kid.1
      if !insideForm && isLunaName kid.1 then
        if kid.2 = .dir ∧ (formFolderTag kid.1).any (tags.contains ·) then walkDir k (kid.1 :: dir) rel true else []
      else
        match kid.2 with
        | .link => []
        | .dir => walkDir k (kid.1 :: dir) rel insideForm
        | .file b => [⟨rel, kid.1 :: dir, b.length⟩]

/-- Every file to copy under a source that was resolved to a path on disk, ordered by `rel`. -/
def scopeWalk (source : Path) : List ScopeEntry :=
  let found : List ScopeEntry :=
    match source, t.get? source with
    | name :: _, some (.file b) => [⟨name, source, b.length⟩]
    | [], _ => walkDir formHash t (t.depth + 1) [] [] false
    | _, some .dir => walkDir formHash t (t.depth + 1) source [] false
    | _, _ => []
  found.insertionSort fun a b => a.rel ≤ b.rel

end Walk

/-- A path of a drive, outside the trash and of Luna's own, on disk. -/
def Drive.resolveAny (d : Drive) (rel : Text) : Except FilesError Path := do
  let rel ← canonicalPath rel
  let real := d.realRel rel
  if isInternalTemp real then .error (.io "not found")
  else d.resolve real

/-- What a run of the row copies. -/
def Db.walked (db : Db) (formHash : Text → Text) (row : ProtectionRow) : List ScopeEntry :=
  match db.drives row.sourceDrive with
  | none => []
  | some d =>
    match d.resolveAny (spelled row.sourcePath) with
    | .ok source => scopeWalk formHash d.disk source
    | .error _ => []

/-! ### Where the walk goes -/

variable {s : Drive} {formHash : Text → Text}

/-- The files folder of a form has a name of Luna's that no private item and no trash has. -/
theorem formFolderTag_some {l : Layout} {segment tag : Text} (h : formFolderTag segment = some tag) :
    isLunaName segment = true ∧ segment ≠ l.trashName ∧ l.isDiskName segment = false := by
  obtain ⟨p, hp, h⟩ := Option.bind_eq_some_iff.mp h
  have hform : "-form-".toList <+: segment.drop p.length := by
    by_contra hnot
    rw [← isPrefixOf_iff_prefix] at hnot
    rw [if_neg hnot] at h
    cases h
  have hsame : ∀ rest, segment = l.pfx ++ rest → "-form-".toList <+: rest := by
    rintro rest rfl
    rw [extractPrefix_pfx] at hp
    obtain rfl := Option.some.inj hp
    rwa [drop_left] at hform
  refine ⟨by rw [isLunaName, hp]; rfl, ?_, ?_⟩
  · intro heq
    exact absurd (hsame _ heq) (by decide)
  · rw [← Bool.not_eq_true]
    intro hname
    obtain ⟨id, hid⟩ := Layout.isDiskName_iff.mp hname
    rw [Layout.diskName, Layout.lead, append_assoc] at hid
    obtain ⟨rest, hrest⟩ := hsame _ hid
    apply not_mem_of_isDiskId id.2 '-' (by decide)
    have htail : "form-".toList ++ rest = id.1 := (cons.inj hrest).2
    rw [← htail]
    exact mem_append_left _ (by decide)

/-- The walk is in a folder below the source. It came there through no name a private item has on disk, and by a name
of Luna's only if it is inside the files of a form. -/
structure Drive.Below (s : Drive) (source dir : Path) (insideForm : Bool) : Prop where
  plain : ∃ q, dir = q ++ source ∧ ∀ seg ∈ q, s.layout.isDiskName seg = false
  form : insideForm = true → ∃ a d, a :: d <:+ dir ∧ isLunaName a = true ∧ a ≠ s.layout.trashName ∧
    s.layout.isDiskName a = false

/-- What lies above a path on disk lies above it really. -/
theorem Drive.exists_of_suffix_diskIn {d p : Path} (h : d <:+ s.diskIn p) : ∃ p', p' <:+ p ∧ s.diskIn p' = d := by
  have hlen := h.length_le
  rw [length_diskIn] at hlen
  have hdrop : p.drop (p.length - d.length) <:+ p := drop_suffix _ _
  refine ⟨p.drop (p.length - d.length), hdrop, ?_⟩
  refine (suffix_of_suffix_length_le (diskIn_suffix hdrop) h ?_).eq_of_length ?_
  · rw [length_diskIn, length_drop]
    omega
  · rw [length_diskIn, length_drop]
    omega

section

variable (ht : Tidy s)

include ht

/-- No private item lies inside the files of a form. -/
theorem Drive.Tidy.not_diskName_in_form {n a : Text} {dir d : Path} {e : Entry (List UInt8)}
    (he : s.disk.get? (n :: dir) = some e) (hsuf : a :: d <:+ dir) (hluna : isLunaName a = true)
    (htrash : a ≠ s.layout.trashName) (ha : s.layout.isDiskName a = false) : s.layout.isDiskName n = false := by
  rw [← Bool.not_eq_true]
  intro hname
  obtain ⟨p, item, hitem, hdisk⟩ := ht.rowed n dir e he hname
  obtain ⟨p', hp', hin⟩ := exists_of_suffix_diskIn (s := s) (p := p) (hdisk ▸ hsuf.trans (suffix_cons n dir))
  cases p' with
  | nil => cases hin
  | cons m p'' =>
    obtain rfl : m = a := by
      cases hget : s.items.get? (m :: p'') with
      | none =>
        rw [diskIn_cons_none hget] at hin
        exact (cons.inj hin).1
      | some item' =>
        rw [diskIn_cons_some hget] at hin
        rw [← (cons.inj hin).1, Layout.isDiskName_diskName] at ha
        cases ha
    exact (ht.proper p item hitem).not_beneath hluna htrash hp'

/-- Every file of the walk stands on disk below the source, and no private item is on the way. -/
theorem mem_walkDir {dir : Path} {insideForm : Bool} {k : Nat} {relDir : Text}
    (hb : s.Below source dir insideForm) (h : e ∈ walkDir formHash s.disk k dir relDir insideForm) :
    (∃ b, s.disk.get? e.abs = some (.file b)) ∧
      ∃ q, e.abs = q ++ source ∧ ∀ seg ∈ q, s.layout.isDiskName seg = false := by
  induction k generalizing dir relDir insideForm with
  | zero => cases h
  | succ k ih =>
    obtain ⟨⟨n, entry⟩, hkid, h⟩ := mem_flatMap.mp h
    rw [Tree.mem_children] at hkid
    have hname : insideForm = true ∨ isLunaName n = false → s.layout.isDiskName n = false := by
      rintro (hform | hluna)
      · obtain ⟨a, d, hsuf, hluna, htrash, ha⟩ := hb.form hform
        exact ht.not_diskName_in_form hkid hsuf hluna htrash ha
      · exact Layout.isDiskName_of_not_luna hluna
    have hplain : s.layout.isDiskName n = false → ∃ q, n :: dir = q ++ source ∧ ∀ seg ∈ q, s.layout.isDiskName seg = false := by
      intro hn
      obtain ⟨q, rfl, hq⟩ := hb.plain
      exact ⟨n :: q, rfl, forall_mem_cons.mpr ⟨hn, hq⟩⟩
    by_cases hskip : (!insideForm && isLunaName n) = true
    · -- A name of Luna's: only the files of a form are walked.
      rw [if_pos hskip] at h
      by_cases hdir : entry = .dir ∧ (formFolderTag n).any
          ((if insideForm then [] else visibleTags formHash (s.disk.children dir)).contains ·) = true
      · rw [if_pos hdir] at h
        obtain ⟨tag, htag, -⟩ := (Option.any_eq_true _ _).mp hdir.2
        obtain ⟨hluna, htrash, hn⟩ := formFolderTag_some (l := s.layout) htag
        exact ih ⟨hplain hn, fun _ => ⟨n, dir, suffix_refl _, hluna, htrash, hn⟩⟩ h
      · rw [if_neg hdir] at h
        cases h
    · rw [if_neg hskip] at h
      have hn : s.layout.isDiskName n = false := by
        apply hname
        cases insideForm with
        | true => exact .inl rfl
        | false => exact .inr (Bool.not_eq_true _ ▸ hskip)
      cases entry with
      | link => cases h
      | file b =>
        rw [mem_singleton.mp h]
        exact ⟨⟨b, hkid⟩, hplain hn⟩
      | dir =>
        refine ih ⟨hplain hn, fun hform => ?_⟩ h
        obtain ⟨a, d, hsuf, hrest⟩ := hb.form hform
        exact ⟨a, d, hsuf.trans (suffix_cons n dir), hrest⟩

theorem mem_scopeWalk (h : e ∈ scopeWalk formHash s.disk source) : (∃ b, s.disk.get? e.abs = some (.file b)) ∧
      ∃ q, e.abs = q ++ source ∧ ∀ seg ∈ q, s.layout.isDiskName seg = false := by
  have hstart : s.Below source source false := ⟨⟨[], rfl, fun _ hseg => (nomatch hseg)⟩, fun hform => (nomatch hform)⟩
  unfold scopeWalk at h
  rw [mem_insertionSort] at h
  split at h
  · rename_i name d b hfile
    rw [mem_singleton.mp h]
    exact ⟨⟨b, hfile⟩, [], rfl, fun _ hseg => (nomatch hseg)⟩
  · exact mem_walkDir ht hstart h
  · exact mem_walkDir ht hstart h
  · cases h

/-- The real path of a file of the walk: the source's, and below it the names on disk. No private item lies between. -/
theorem Drive.Tidy.logicalIn_walked {q : Path} (hsrc : s.layout.Unsealed src)
    (hq : ∀ seg ∈ q, s.layout.isDiskName seg = false)
    (hstands : q ≠ [] → ∃ e, s.disk.get? (q ++ s.diskIn src) = some e) :
    s.logicalIn (q ++ s.diskIn src) = q ++ src ∧ s.diskIn (q ++ src) = q ++ s.diskIn src ∧
      s.boundaryRec (q ++ src) = s.boundaryRec src := by
  induction q with
  | nil => exact ⟨ht.logicalIn_diskIn hsrc, rfl, rfl⟩
  | cons seg q ih =>
    obtain ⟨e, he⟩ := hstands (cons_ne_nil _ _)
    obtain ⟨hlogical, hdisk, hboundary⟩ := ih (fun seg' hseg' => hq seg' (mem_cons_of_mem _ hseg')) fun hne =>
      ht.grown.taken_above he (suffix_cons seg _) (append_ne_nil_of_left_ne_nil hne _)
    have hseg : s.layout.isDiskName seg = false := hq seg mem_cons_self
    have hrow : s.items.get? (seg :: (q ++ src)) = none := by
      cases hget : s.items.get? (seg :: (q ++ src)) with
      | none => rfl
      | some item =>
        have hclear := ht.clear seg (q ++ src) item hget
        rw [hdisk, ← cons_append, he] at hclear
        cases hclear
    refine ⟨?_, ?_, ?_⟩
    · rw [cons_append, logicalIn, rowOf_of_not_diskName hseg, hlogical]
      rfl
    · rw [cons_append, diskIn_cons_none hrow, hdisk]
      rfl
    · rw [cons_append, boundaryRec_cons_none hseg hrow, hboundary]

/-- A row's source, as a run finds it. -/
theorem resolveAny_ok {p : Path} (h : s.resolveAny (spelled p) = .ok source) :
    source = s.diskIn (normalized p) ∧ s.layout.Unsealed (normalized p) ∧ isTrashApi (normalized p) = false ∧
      s.realRel (normalized p) = normalized p := by
  obtain ⟨rel, hrel, h⟩ := bind_ok h
  obtain ⟨hreserved, h⟩ := of_ite_error h
  have hsame : rel = normalized p := by
    obtain ⟨text, htext, hrel⟩ := bind_ok hrel
    obtain rfl := Except.ok.inj hrel
    rw [(canonicalRel_ok htext).2.1, normalized, normalizeSubjectPath_eq]
    rfl
  subst hsame
  obtain ⟨hreal, htrash⟩ := realRel_of_not_internal (Bool.not_eq_true _ ▸ hreserved)
  rw [hreal] at h
  obtain ⟨rfl, hunsealed, -⟩ := ht.resolveChild_ok (resolve_ok h)
  exact ⟨rfl, hunsealed, htrash, hreal⟩

end

/-! ### Who may see it -/

theorem view_iff (c : Caps) : c &&& capView ≠ 0 ↔ c.getLsbD 0 = true := by
  have hbit : c &&& capView = if c.getLsbD 0 then 1 else 0 := by
    apply BitVec.eq_of_getLsbD_eq
    intro i hi
    rw [BitVec.getLsbD_and]
    cases i with
    | zero => cases hc : c.getLsbD 0 <;> simp [capView]
    | succ i =>
      have hone : capView.getLsbD (i + 1) = false := by simp [capView]
      rw [hone]
      cases hc : c.getLsbD 0 <;> simp
  rw [hbit]
  cases hc : c.getLsbD 0 <;> simp

/-- Read by a row is Read by all rows together. -/
theorem Db.view_union {rows : List AccessMember} {r : AccessMember} (hr : r ∈ rows) (hview : r.caps &&& capView ≠ 0) :
    union rows &&& capView ≠ 0 := by
  rw [view_iff, getLsbD_union, any_eq_true]
  exact ⟨r, hr, (view_iff _).mp hview⟩

theorem view_manage : capManage &&& capView ≠ 0 := by decide

/-- Where nothing at the top of the disk has the alias of the trash for its name, nothing walked goes by it. -/
theorem Drive.Tidy.not_trashApi (ht : Tidy s) {q : Path} {e : Entry (List UInt8)}
    (hcalm : s.disk.get? [trashApiAlias] = none) (hsrc : isTrashApi src = false)
    (he : s.disk.get? (q ++ s.diskIn src) = some e) : isTrashApi (q ++ src) = false := by
  by_cases hnil : src = []
  · subst hnil
    rw [append_nil]
    rw [diskIn, append_nil] at he
    rw [← Bool.not_eq_true]
    intro htrash
    rw [isTrashApi, decide_eq_true_eq] at htrash
    obtain ⟨init, rfl⟩ := getLast?_eq_some_iff.mp htrash
    obtain ⟨e', he'⟩ := ht.grown.taken_above he (suffix_append init _) (cons_ne_nil _ _)
    rw [hcalm] at he'
    cases he'
  · rw [← hsrc, isTrashApi, isTrashApi, getLast?_append_of_ne_nil _ hnil]

/-- A file of a row's walk: where it is, and that it lies in the same private item as the source, if in any. -/
theorem Db.mem_walked (ht : Tidy s)
    (hcalm : s.disk.get? [trashApiAlias] = none) (hdrive : db.drives row.sourceDrive = some s)
    (he : e ∈ db.walked formHash row) :
    ∃ q b, s.logicalIn e.abs = q ++ normalized row.sourcePath ∧ s.layout.Unsealed (q ++ normalized row.sourcePath) ∧
      s.disk.get? (s.diskIn (q ++ normalized row.sourcePath)) = some (.file b) ∧
      s.boundaryFor (q ++ normalized row.sourcePath) = s.boundaryFor (normalized row.sourcePath) ∧
      isTrashApi (q ++ normalized row.sourcePath) = false ∧
      s.realRel (normalized row.sourcePath) = normalized row.sourcePath := by
  rw [walked, hdrive] at he
  dsimp only at he
  split at he
  · rename_i source hsource
    obtain ⟨rfl, hunsealed, htrash, hreal⟩ := resolveAny_ok ht hsource
    obtain ⟨⟨b, hfile⟩, q, habs, hq⟩ := mem_scopeWalk ht he
    rw [habs] at hfile ⊢
    obtain ⟨hlogical, hdisk, hboundary⟩ := ht.logicalIn_walked hunsealed hq fun _ => ⟨_, hfile⟩
    refine ⟨q, b, hlogical, unsealed_append.mpr ⟨hq, hunsealed⟩, by rw [hdisk, hfile], ?_,
      ht.not_trashApi hcalm htrash hfile, hreal⟩
    rw [boundaryFor, boundaryFor, hboundary]
  · cases he

theorem mem_sortedSet {xs : List Text} {x : Text} : x ∈ sortedSet xs ↔ x ∈ xs := by
  rw [sortedSet, mem_insertionSort, mem_dedup]

/-- Someone on the list of a shared backup may read every file of it. -/
theorem Db.shared_readable {user : User} {drive : Text} {q : Path} {b : List UInt8} (ht : Tidy s)
    (hdrive : db.drives drive = some s) (hgrants : ∀ r ∈ db.members, normalized r.path = r.path)
    (hunsealed : s.layout.Unsealed (q ++ src)) (hfile : s.disk.get? (s.diskIn (q ++ src)) = some (.file b))
    (hneat : normalized (q ++ src) = q ++ src) (hsrc : normalized src = src)
    (hallows : (db.forSource drive src).allows user = true) :
    (if user.isAdmin then capManage else db.memberRowCaps user drive (q ++ src)) &&& capView ≠ 0 := by
  split
  · exact view_manage
  rename_i hadmin
  rw [Bool.not_eq_true] at hadmin
  rw [AccessList.allows, hadmin, Bool.and_false, Bool.false_or, decide_eq_true_eq, forSource,
    mem_sortedSet, mem_filter, mem_map] at hallows
  obtain ⟨⟨r, hr, huser⟩, -⟩ := hallows
  obtain ⟨hmem, hr⟩ := mem_filter.mp hr
  simp only [Bool.and_eq_true, decide_eq_true_eq, pathContains, isSuffixOf_iff_suffix] at hr
  obtain ⟨hkind, hview, hcovers⟩ := hr
  rw [hgrants r hmem, hsrc] at hcovers
  have habove : r.path <:+ q ++ src := hcovers.trans (suffix_append q src)
  refine view_union (r := r) (mem_filter.mpr ⟨mem_filter.mpr ⟨hmem, decide_eq_true huser⟩, ?_⟩) hview
  simp only [hdrive, hgrants r hmem, hneat, Bool.and_eq_true, decide_eq_true_eq, pathContains, isSuffixOf_iff_suffix]
  exact ⟨hkind, habove, ht.grant_covers hunsealed hfile habove⟩

/-- Someone on the list of a private backup may read what lies in the item, unless its owner was deleted. -/
theorem Db.private_readable_iff {user : User} {drive o : Text} {x item : Path}
    (hneat : normalized x = x) (hitem : normalized item = item) (hx : item <:+ x)
    (hallows : (db.forPrivate drive item o).allows user = true) :
    db.privateCaps user drive x item o &&& capView ≠ 0 ↔ db.ownerState o ≠ .deleted := by
  by_cases hdeleted : db.ownerState o = .deleted
  · rw [privateCaps]
    simp [hdeleted]
  refine ⟨fun _ => hdeleted, fun _ => ?_⟩
  have hsealed : o ≠ sealedOwner := by
    rintro rfl
    exact hdeleted (if_pos rfl)
  rw [privateCaps, if_neg fun h => h.elim hsealed hdeleted]
  by_cases howner : o = user.id
  · rw [if_pos howner]
    exact view_manage
  rw [if_neg howner]
  split
  · exact view_manage
  rw [AccessList.allows, forPrivate, Bool.false_and, Bool.false_or, decide_eq_true_eq, mem_sortedSet,
    mem_cons] at hallows
  have hgrant := hallows.resolve_left fun h => howner h.symm
  obtain ⟨r, hr, huser⟩ := mem_map.mp (mem_filter.mp hgrant).1
  obtain ⟨hmem, hr⟩ := mem_filter.mp hr
  simp only [Bool.and_eq_true, decide_eq_true_eq] at hr
  obtain ⟨hkind, hview, hsame⟩ := hr
  refine view_union (r := r) (mem_filter.mpr ⟨mem_filter.mpr ⟨hmem, decide_eq_true huser⟩, ?_⟩) hview
  simp only [hneat, hsame, hitem, Bool.and_eq_true, decide_eq_true_eq, pathContains, isSuffixOf_iff_suffix]
  exact ⟨hkind, hx, suffix_refl _⟩

theorem Db.privateSource_some {drive : Text} {b : Boundary} (hdrive : db.drives drive = some s)
    (hsrc : normalized src = src) (hreal : s.realRel src = src) (hb : s.boundaryFor src = some b) :
    db.privateSource drive src = if b.path = src then .ownItem b.owner else .inside b.owner b.path := by
  rw [privateSource, hdrive]
  dsimp only
  rw [hsrc, hreal, hb]

/-- A shared row that may go on has a source outside every private item. -/
theorem Db.boundary_of_shared (hdrive : db.drives row.sourceDrive = some s)
    (hsrc : normalized row.sourcePath = row.sourcePath) (hreal : s.realRel row.sourcePath = row.sourcePath)
    (hstop : db.stopReason row = none) (howner : row.privateOwner = []) : s.boundaryFor row.sourcePath = none := by
  cases hb : s.boundaryFor row.sourcePath with
  | none => rfl
  | some b =>
    rw [stopReason, if_pos howner, hsrc, privateSource_some hdrive hsrc hreal hb] at hstop
    by_cases hpath : b.path = row.sourcePath
    · rw [if_pos hpath] at hstop
      cases hstop
    · rw [if_neg hpath] at hstop
      cases hstop

/-- A private row that may go on has a source in an item of its owner, and its list is the item's. -/
theorem Db.boundary_of_private (hdrive : db.drives row.sourceDrive = some s)
    (hkind : row.kind = .drive) (hsrc : normalized row.sourcePath = row.sourcePath)
    (hreal : s.realRel row.sourcePath = row.sourcePath) (hstop : db.stopReason row = none)
    (howner : row.privateOwner ≠ []) :
    ∃ b, s.boundaryFor row.sourcePath = some b ∧ b.owner = row.privateOwner ∧
      db.forRow row = db.forPrivate row.sourceDrive b.path row.privateOwner := by
  have hprivate : db.privateStopReason row = none := by
    rw [stopReason, if_neg howner] at hstop
    split at hstop
    · cases hstop
    · assumption
  have hnone : ¬ (row.privateOwner = [] ∨ (db.drives row.sourceDrive).isNone = true) := by
    rw [hdrive]
    simp [howner]
  have hcloud : row.kind ≠ .cloud := by
    rw [hkind]
    exact fun h => (nomatch h)
  rw [privateStopReason, if_neg hnone] at hprivate
  rw [forRow, if_neg howner, if_neg hcloud]
  cases hb : s.boundaryFor row.sourcePath with
  | none =>
    have hplain : db.privateSource row.sourceDrive row.sourcePath = .privateTrash ∨
        db.privateSource row.sourceDrive row.sourcePath = .shared := by
      rw [privateSource, hdrive]
      dsimp only
      rw [hsrc, hreal, hb]
      dsimp only
      split
      · exact .inl rfl
      · exact .inr rfl
    rcases hplain with hplain | hplain
    · rw [hplain] at hprivate
      cases hprivate
    · rw [hplain] at hprivate
      cases hprivate
  | some b =>
    rw [privateSource_some hdrive hsrc hreal hb] at hprivate ⊢
    refine ⟨b, rfl, ?_⟩
    by_cases hpath : b.path = row.sourcePath
    · rw [if_pos hpath] at hprivate ⊢
      dsimp only at hprivate ⊢
      by_cases hsame : b.owner = row.privateOwner
      · exact ⟨hsame, by rw [hpath]⟩
      · rw [if_neg hsame] at hprivate
        cases hprivate
    · rw [if_neg hpath] at hprivate ⊢
      dsimp only at hprivate ⊢
      by_cases hsame : b.owner = row.privateOwner
      · exact ⟨hsame, rfl⟩
      · rw [if_neg hsame] at hprivate
        cases hprivate

/-- **A backup shows only what one may read.** A file of a row that may go on, and someone on the row's list: they may
read the file where it is, exactly if the row is shared or the private owner's account was not deleted. -/
theorem backup_shows_readable_iff {db : Db} {row : ProtectionRow} {e : ScopeEntry} {user : User} (hw : s.WellFormed)
    (hs : s.InStep) (hcalm : s.disk.get? [trashApiAlias] = none) (hdrive : db.drives row.sourceDrive = some s)
    (hkind : row.kind = .drive) (hgrants : ∀ r ∈ db.members, normalized r.path = r.path)
    (hsrc : normalized row.sourcePath = row.sourcePath)
    (hitem : ∀ b, s.boundaryFor row.sourcePath = some b → normalized b.path = b.path)
    (hstop : db.stopReason row = none) (he : e ∈ db.walked formHash row)
    (hneat : normalized (s.logicalIn e.abs) = s.logicalIn e.abs) (hallows : (db.forRow row).allows user = true) :
    db.capsOnPath user row.sourceDrive (s.logicalIn e.abs) &&& capView ≠ 0 ↔
      row.privateOwner = [] ∨ db.ownerState row.privateOwner ≠ .deleted := by
  have ht := hs.tidy hw
  obtain ⟨q, b, hlogical, hunsealed, hfile, hboundary, htrash, hreal⟩ := Db.mem_walked ht hcalm hdrive he
  rw [hsrc] at hlogical hunsealed hfile hboundary htrash hreal
  rw [hlogical] at hneat ⊢
  rw [Db.capsOnPath_outside htrash, Db.plainCaps, Db.privateBoundary_outside hdrive hneat htrash, hboundary]
  by_cases howner : row.privateOwner = []
  · rw [Db.boundary_of_shared hdrive hsrc hreal hstop howner]
    rw [Db.forRow, if_pos howner] at hallows
    exact ⟨fun _ => .inl howner, fun _ => Db.shared_readable ht hdrive hgrants hunsealed hfile hneat hsrc hallows⟩
  obtain ⟨item, hb, hsame, hlist⟩ := Db.boundary_of_private hdrive hkind hsrc hreal hstop howner
  have hsuf : item.path <:+ q ++ row.sourcePath := by
    rcases boundaryFor_cases (unsealed_append.mp hunsealed).2 with ⟨hnone, -⟩ | ⟨path, owner, hsome, -, hsuf, -⟩
    · rw [hb] at hnone
      cases hnone
    · rw [hb] at hsome
      rw [Option.some.inj hsome]
      exact hsuf.trans (suffix_append q _)
  rw [hlist] at hallows
  rw [hb]
  dsimp only
  rw [hsame, Db.private_readable_iff hneat (hitem item hb) hsuf hallows]
  exact ⟨.inr, fun h => h.resolve_left howner⟩

/-! ### A backup that outlives its owner's account -/

/-- Ann's private folder is backed up to another drive, and bob may read the folder. -/
def annsRow : ProtectionRow := ⟨.drive, [], ["secret".toList], "backup".toList, "ann".toList⟩

/-- The household while ann has an account, and after. -/
def annsHousehold (users : List User) (deleted : List Text) : Db where
  users := users
  deletedUsers := deleted
  members := [⟨"bob".toList, .path, [], ["secret".toList], capView⟩]
  drives := fun _ => some secretDrive

def bobMember : User := ⟨"bob".toList, "user"⟩

/-- The diary, as the walk finds it. -/
def diaryEntry : ScopeEntry := ⟨"diary".toList, secretDrive.diskIn ["diary".toList, "secret".toList], 0⟩

theorem diary_readable :
    (annsHousehold [⟨"ann".toList, "user"⟩, bobMember] []).capsOnPath bobMember [] (secretDrive.logicalIn diaryEntry.abs) &&&
      capView ≠ 0 := by
  have hfacts : secretDrive.disk.get? [trashApiAlias] = none ∧
      (annsHousehold [⟨"ann".toList, "user"⟩, bobMember] []).stopReason annsRow = none ∧
      diaryEntry ∈ (annsHousehold [⟨"ann".toList, "user"⟩, bobMember] []).walked shortHash annsRow ∧
      normalized (secretDrive.logicalIn diaryEntry.abs) = secretDrive.logicalIn diaryEntry.abs ∧
      ((annsHousehold [⟨"ann".toList, "user"⟩, bobMember] []).forRow annsRow).allows bobMember = true ∧
      secretDrive.boundaryFor annsRow.sourcePath = some (.item ["secret".toList] "ann".toList) := by
    decide +kernel
  obtain ⟨hcalm, hstop, hwalked, hneat, hallows, hboundary⟩ := hfacts
  have hitem : ∀ b, secretDrive.boundaryFor annsRow.sourcePath = some b → normalized b.path = b.path := by
    intro b hb
    rw [hboundary] at hb
    rw [← Option.some.inj hb]
    decide
  exact (backup_shows_readable_iff secretDrive_tidy.toWellFormed secretDrive_tidy.inStep hcalm rfl rfl (by decide)
    (by decide) hitem hstop hwalked hneat hallows).mpr (.inr (by decide))

/-- When ann's account is deleted the folder is walled off from everyone, and the backup goes on for bob. -/
theorem diary_shown_without_owner : (annsHousehold [bobMember] ["ann".toList]).ownerState "ann".toList = .deleted ∧
      (annsHousehold [bobMember] ["ann".toList]).stopReason annsRow = none ∧
      diaryEntry ∈ (annsHousehold [bobMember] ["ann".toList]).walked shortHash annsRow ∧
      ((annsHousehold [bobMember] ["ann".toList]).forRow annsRow).allows bobMember = true ∧
      (annsHousehold [bobMember] ["ann".toList]).capsOnPath bobMember [] (secretDrive.logicalIn diaryEntry.abs) &&&
        capView = 0 := by
  decide +kernel

end LibreServ.Files
