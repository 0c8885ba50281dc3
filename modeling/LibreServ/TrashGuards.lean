import LibreServ.PrivateTrash

/-! What guards a deleted file: the nearest private item that was deleted with it, or the owner its trash entry
remembers. A file is followed through the trash by the calls that move it there, and stays guarded until a call takes
it out. -/

namespace LibreServ.Files

open FileTree Drive List Option Table

variable {os : Os} {s s' : Drive} {formHash : Text → Text} {e : Entry (List UInt8)} {dp p dt apiRel : Path}
  {n m newName : Text} {l : Layout}

/-! ### The nearest private item -/

/-- The owner of the nearest private item at or above a path. -/
def Drive.ownerOver (s : Drive) : Path → Option Text
  | [] => none
  | seg :: d =>
    match s.items.get? (seg :: d) with
    | some item => some item.owner
    | none => s.ownerOver d

namespace Drive

theorem ownerOver_cons_none {seg : Text} {d : Path} (h : s.items.get? (seg :: d) = none) :
    s.ownerOver (seg :: d) = s.ownerOver d := by
  rw [ownerOver, h]

theorem ownerOver_cons_some {seg : Text} {d : Path} {item : Item} (h : s.items.get? (seg :: d) = some item) :
    s.ownerOver (seg :: d) = some item.owner := by
  rw [ownerOver, h]

theorem ownerOver_congr (h : ∀ q, q <:+ p → s'.items.get? q = s.items.get? q) :
    s'.ownerOver p = s.ownerOver p := by
  induction p with
  | nil => rfl
  | cons seg d ih =>
    rw [ownerOver, ownerOver, h _ (suffix_refl _), ih fun q hq => h q (hq.trans (suffix_cons seg d))]

variable {q : Path}

/-- Above a branch without rows nothing changes on the way down. -/
theorem ownerOver_append_of_none (h : ∀ r, s.items.get? (r ++ p) = none) :
    s.ownerOver (q ++ p) = match p with
      | [] => none
      | _ :: d => s.ownerOver d := by
  induction q with
  | nil =>
    cases p with
    | nil => rfl
    | cons n d => exact ownerOver_cons_none (h [])
  | cons seg q ih =>
    rw [← ih]
    exact ownerOver_cons_none (h (seg :: q))

/-- The boundary of a path is its nearest private item, if any. -/
theorem boundaryFor_cases (hp : s.layout.Unsealed p) : (s.boundaryFor p = none ∧ s.ownerOver p = none) ∨
      ∃ path owner, s.boundaryFor p = some (.item path owner) ∧ s.ownerOver p = some owner ∧ path <:+ p ∧ path ≠ [] := by
  have hrec : s.boundaryFor p = s.boundaryRec p := by
    rw [boundaryFor]
    split
    · exact (boundaryRec_eq_none_of_no_rows hp ‹_›).symm
    · rfl
  rw [hrec]
  clear hrec
  induction p with
  | nil => exact .inl ⟨rfl, rfl⟩
  | cons seg d ih =>
    have hseg : s.layout.isDiskName seg = false := hp seg mem_cons_self
    cases hget : s.items.get? (seg :: d) with
    | some item =>
      exact .inr ⟨seg :: d, item.owner, boundaryRec_cons_some hp hget, ownerOver_cons_some hget, suffix_refl _,
        cons_ne_nil _ _⟩
    | none =>
      rw [boundaryRec_cons_none hseg hget, ownerOver_cons_none hget]
      rcases ih hp.tail with hnone | ⟨path, owner, hb, ho, hsuf, hne⟩
      · exact .inl hnone
      · exact .inr ⟨path, owner, hb, ho, hsuf.trans (suffix_cons seg d), hne⟩

/-- Rows that go along keep guarding; a path with none among them answers to the folder it lands in. -/
theorem ownerOver_moved (hi : ∀ r, s'.items.get? (r ++ m :: dt) = s.items.get? (r ++ n :: dp))
    (q : Path) :
    (∃ o, s'.ownerOver (q ++ m :: dt) = some o ∧ s.ownerOver (q ++ n :: dp) = some o) ∨
      (s'.ownerOver (q ++ m :: dt) = s'.ownerOver dt ∧ s.ownerOver (q ++ n :: dp) = s.ownerOver dp ∧
        s.items.get? (n :: dp) = none) := by
  induction q with
  | nil =>
    have hrow := hi []
    rw [nil_append, nil_append] at hrow ⊢
    cases hget : s.items.get? (n :: dp) with
    | none =>
      rw [hget] at hrow
      exact .inr ⟨ownerOver_cons_none hrow, ownerOver_cons_none hget, rfl⟩
    | some item =>
      rw [hget] at hrow
      exact .inl ⟨item.owner, ownerOver_cons_some hrow, ownerOver_cons_some hget⟩
  | cons seg q ih =>
    have hrow := hi (seg :: q)
    rw [cons_append, cons_append] at hrow ⊢
    cases hget : s.items.get? (seg :: (q ++ n :: dp)) with
    | none =>
      rw [hget] at hrow
      rw [ownerOver_cons_none hrow, ownerOver_cons_none hget]
      exact ih
    | some item =>
      rw [hget] at hrow
      exact .inl ⟨item.owner, ownerOver_cons_some hrow, ownerOver_cons_some hget⟩

/-! ### What a call leaves alone -/

theorem unsealed_append : l.Unsealed (q ++ p) ↔ l.Unsealed q ∧ l.Unsealed p :=
  forall_mem_append

theorem Shift.rows_beneath (h : Shift s s' n dp m dt) (ht : Tidy s) (r : Path) :
    s'.items.get? (r ++ m :: dt) = s.items.get? (r ++ n :: dp) := by
  rw [h.items]
  exact get?_relocate_moved (h.movable.rows_vacant ht) r

theorem Shift.rows_apart (h : Shift s s' n dp m dt) (ht : Tidy s)
    (hsrc : ¬ n :: dp <:+ p) (hdst : ¬ m :: dt <:+ p) : s'.items.get? p = s.items.get? p := by
  rw [h.items]
  exact get?_relocate_other (h.movable.rows_vacant ht) hsrc hdst

/-- Nothing that stands lies at or beneath a free name. -/
theorem Movable.not_above {x : Path} (h : Movable s n dp m dt) (ht : Tidy s)
    (hx : s.disk.get? (s.diskIn x) = some e) : ¬ m :: dt <:+ x := by
  intro hsuf
  have hdisk := diskIn_suffix (s := s) hsuf
  rw [diskIn_cons_none h.unused] at hdisk
  obtain ⟨e', he'⟩ := ht.grown.taken_above hx hdisk (cons_ne_nil _ _)
  rw [h.free] at he'
  cases he'

theorem unsealed_in_trash {entry : Text} (hq : l.Unsealed q) (hentry : isLunaName entry = false) :
    l.Unsealed (q ++ [entry, l.trashName]) :=
  unsealed_append.mpr ⟨hq, .cons (Layout.isDiskName_of_not_luna hentry)
    (.cons Layout.isDiskName_trashName Layout.unsealed_nil)⟩

/-- What guards a file in the trash: the nearest private item above it, or the owner its entry remembers. -/
structure Guards (s : Drive) (o : Text) (q : Path) (entry : Text) : Prop where
  unsealed : s.layout.Unsealed (q ++ [entry, s.layout.trashName])
  plain : isLunaName entry = false
  guard : s.ownerOver (q ++ [entry, s.layout.trashName]) = some o ∨
    (s.ownerOver (q ++ [entry, s.layout.trashName]) = none ∧ o ≠ [] ∧ ∃ found root, s.trashMeta.get? entry = some found ∧
      found.privateOwner = o ∧ (segments found.privatePath).getLast? = some root ∧ root ≠ trashApiAlias)

theorem Guards.spared {o entry : Text} (h : s.Guards o q entry) (hl : s'.layout = s.layout)
    (hrows : ∀ p, p <:+ q ++ [entry, s.layout.trashName] → s'.items.get? p = s.items.get? p)
    (hmeta : s'.trashMeta.get? entry = s.trashMeta.get? entry) : s'.Guards o q entry := by
  refine ⟨hl ▸ h.unsealed, h.plain, ?_⟩
  rw [hl, ownerOver_congr hrows, hmeta]
  exact h.guard

theorem Guards.shifted {o entry : Text} (h : s.Guards o q entry) (ht : Tidy s)
    (hshift : Shift s s' n dp m dt)
    (hfile : s.disk.get? (s.diskIn (q ++ [entry, s.layout.trashName])) = some e)
    (hsrc : ¬ n :: dp <:+ q ++ [entry, s.layout.trashName])
    (hmeta : s'.trashMeta.get? entry = s.trashMeta.get? entry) : s'.Guards o q entry := by
  have hdst := hshift.movable.not_above ht hfile
  exact h.spared hshift.layout (fun p hp => hshift.rows_apart ht (fun hsuf => hsrc (hsuf.trans hp))
    fun hsuf => hdst (hsuf.trans hp)) hmeta

end Drive

/-! ### Origins -/

/-- A top-level trash entry that a call names lies in the trash of this drive. -/
theorem trashEntryParts_own {rel : Path} {entry : Text} (hrel : s.realRel apiRel = rel)
    (hapi : isTrashRel rel = true → isTrashApi apiRel = true) (h : trashEntryParts rel = some (entry, false)) :
    rel = [entry, s.layout.trashName] := by
  obtain ⟨root, rfl⟩ := trashEntryParts_top h
  have htrash : isTrashRel [entry, root] = true := by
    unfold trashEntryParts at h
    split at h
    · assumption
    · cases h
  rw [realRel_trash (hapi htrash) hrel]

theorem forgetOrigin_get? {entry : Text} {rel q : Path} (hrel : s.realRel apiRel = rel)
    (hapi : isTrashRel rel = true → isTrashApi apiRel = true) (hsrc : ¬ rel <:+ q ++ [entry, s.layout.trashName]) :
    (forgetOrigin rel s).trashMeta.get? entry = s.trashMeta.get? entry := by
  unfold forgetOrigin
  split
  · rename_i entry' hparts
    obtain rfl := trashEntryParts_own hrel hapi hparts
    have hne : entry ≠ entry' := by
      rintro rfl
      exact hsrc (suffix_append q _)
    rw [get?_erase, if_neg hne]
  · rfl

/-- The origin of an entry that is not renamed, and whose name nothing gets, stays. -/
theorem retitle_get? {entry : Text} {rel q : Path} (hrel : s.realRel apiRel = rel)
    (hapi : isTrashRel rel = true → isTrashApi apiRel = true) (hsrc : ¬ rel <:+ q ++ [entry, s.layout.trashName])
    (hdst : ¬ renamedTo rel newName :: rel.tail <:+ q ++ [entry, s.layout.trashName]) :
    (retitle rel newName s).trashMeta.get? entry = s.trashMeta.get? entry := by
  unfold retitle
  split
  · rename_i entry' hparts
    split
    · rfl
    rename_i found _
    obtain rfl := trashEntryParts_own hrel hapi hparts
    have hold : entry ≠ entry' := by
      rintro rfl
      exact hsrc (suffix_append q _)
    have hnew : entry ≠ renamedTo [entry', s.layout.trashName] newName := by
      intro heq
      apply hdst
      rw [← heq]
      exact suffix_append q _
    rw [get?_erase, if_neg hold]
    exact get?_put_of_ne _ _ hnew
  · rfl

/-- A renamed entry keeps the owner it remembers. -/
theorem retitle_get?_renamed {entry : Text} {found : TrashMeta}
    (hparts : trashEntryParts [entry, s.layout.trashName] = some (entry, false))
    (hne : renamedTo [entry, s.layout.trashName] newName ≠ entry) (hfound : s.trashMeta.get? entry = some found) :
    ∃ found', (retitle [entry, s.layout.trashName] newName s).trashMeta.get?
        (renamedTo [entry, s.layout.trashName] newName) = some found' ∧
      found'.privateOwner = found.privateOwner ∧ found'.privatePath = found.privatePath := by
  unfold retitle
  rw [hparts]
  dsimp only
  rw [hfound]
  rw [get?_erase, if_neg hne, get?_put_self]
  exact ⟨_, rfl, rfl, rfl⟩

/-! ### Following a file through the trash -/

/-- The real path a call moves or removes. -/
def Call.source (s : Drive) : Call → Option Path
  | .mkdirAs _ _ => none
  | .create _ => none
  | .rename rel _ => (canonicalPath rel).toOption.map s.realRel
  | .moveRel src _ => (canonicalPath src).toOption.map s.realRel
  | .deleteToTrash rel => (canonicalPath rel).toOption.map s.realRel
  | .restoreFromTrash trashRel _ => (canonicalPath trashRel).toOption.map s.realRel
  | .purgeTrash trashRel => (canonicalPath trashRel).toOption.map s.realRel

/-- What lies beside a form on disk and goes along when the form is renamed, with the place it goes to. -/
def Drive.companions (s : Drive) (formHash : Text → Text) (n m : Text) (dp : Path) : List (Path × Path) :=
  (filesDirNamed formHash s.layout (s.diskIn (n :: dp)) n, filesDirNamed formHash s.layout (s.landing (n :: dp) m dp) m) ::
    match responsesFileNamed formHash s.layout (s.diskIn (n :: dp)) n,
      responsesFileNamed formHash s.layout (s.landing (n :: dp) m dp) m with
    | some a, some b => [(a, b)]
    | _, _ => []

/-- Where a file that lies at `x` in the trash may lie there after a call. A file that a call moves out of the trash
or removes lies nowhere in it. -/
inductive Call.Follows (formHash : Text → Text) (s : Drive) : Call → Path → Path → Prop
  | stays (c : Call) (x : Path) (h : ∀ src ∈ c.source s, ¬ src <:+ x) : Follows formHash s c x x
  | along (rel newName : Text) (n : Text) (dp q : Path) (h : (Call.rename rel newName).source s = some (n :: dp)) :
      Follows formHash s (.rename rel newName) (q ++ n :: dp) (q ++ renamedTo (n :: dp) (trim newName) :: dp)
  | beside (rel newName : Text) (n : Text) (dp q : Path) (a b : Text)
      (h : (Call.rename rel newName).source s = some (n :: dp)) (hform : isFormPath n = true)
      (hab : (a :: s.diskIn dp, b :: s.diskIn dp) ∈ s.companions formHash n (renamedTo (n :: dp) (trim newName)) dp)
      (ha : s.items.get? (a :: dp) = none) (hb : s.items.get? (b :: dp) = none)
      (hfree : s.disk.get? (b :: s.diskIn dp) = none) :
      Follows formHash s (.rename rel newName) (q ++ a :: dp) (q ++ b :: dp)

/-- A file of content `b`, followed through calls that succeed. -/
inductive Followed (formHash : Text → Text) (b : List UInt8) : List (Env × Call) → Drive → Path → Drive → Path → Prop
  | here (s : Drive) (x : Path) (hfile : s.disk.get? (s.diskIn x) = some (.file b)) : Followed formHash b [] s x s x
  | step (env : Env) (c : Call) (rest : List (Env × Call)) (s s₁ s' : Drive) (x x₁ x' : Path)
      (hfile : s.disk.get? (s.diskIn x) = some (.file b)) (hclean : c.Clean s) (hrun : c.run formHash env s = .ok s₁)
      (hx : c.Follows formHash s x x₁) (hrest : Followed formHash b rest s₁ x₁ s' x') :
      Followed formHash b ((env, c) :: rest) s x s' x'

theorem mem_source {rel : Text} (h : canonicalPath rel = .ok p) :
    s.realRel p ∈ (canonicalPath rel).toOption.map s.realRel := by
  rw [h]
  rfl

/-- Every path above something in the trash is the root or goes through the trash. -/
theorem luna_above_trash {q : Path} {entry : Text} (h : p <:+ q ++ [entry, l.trashName]) :
    (∃ seg ∈ p, isLunaName seg = true) ∨ p = [] := by
  rcases eq_nil_or_concat p with rfl | ⟨p', root, rfl⟩
  · exact .inr rfl
  obtain ⟨r, hr⟩ := h
  have hlast := congrArg getLast? hr
  rw [concat_eq_append] at *
  have hroot : root = l.trashName := by simpa using hlast
  refine .inl ⟨root, mem_append_right _ (mem_singleton_self _), ?_⟩
  rw [hroot]
  exact l.isLunaName_pfx _

namespace Drive

variable {o entry : Text} {q : Path}

/-- A file in the trash that a call neither moves nor removes is guarded as before. -/
theorem Guards.stays {env : Env} {c : Call} (hg : s.Guards o q entry) (ht : Tidy s)
    (hfile : s.disk.get? (s.diskIn (q ++ [entry, s.layout.trashName])) = some e) (hclean : c.Clean s)
    (hrun : c.run formHash env s = .ok s') (hsrc : ∀ src ∈ c.source s, ¬ src <:+ q ++ [entry, s.layout.trashName]) :
    s'.Guards o q entry := by
  cases c with
  | mkdirAs rel owner =>
    obtain ⟨-, hl, hm, hi⟩ := mkdirAs_ok ht hrun
    exact hg.spared hl (fun p hp => hi p (luna_above_trash hp)) (by rw [hm])
  | create rel =>
    obtain ⟨-, hl, hi, hm⟩ := create_ok ht hrun
    exact hg.spared hl (fun p _ => by rw [hi]) (by rw [hm])
  | rename rel newName =>
    obtain ⟨apiRel, n, dp, hapi, hrel, htrash, -, hshift, hm⟩ :=
      rename_shift ht hrun fun apiRel hapi => hclean apiRel (mem_toOption hapi)
    have hout := hsrc _ (mem_source hapi)
    rw [hrel] at hout
    refine hg.shifted ht hshift hfile hout ?_
    rw [hm]
    exact retitle_get? hrel (fun h => (htrash h).1) hout (hshift.movable.not_above ht hfile)
  | moveRel src dst =>
    obtain ⟨apiSrc, n, dp, m, dt, hapi, hrel, htrash, hshift, -, hm⟩ := moveRel_shift ht hrun fun apiSrc apiDst hsrc hdst =>
      hclean apiSrc (mem_toOption hsrc) apiDst (mem_toOption hdst)
    have hout := hsrc _ (mem_source hapi)
    rw [hrel] at hout
    refine hg.shifted ht hshift hfile hout ?_
    rw [hm]
    exact forgetOrigin_get? hrel htrash hout
  | deleteToTrash rel =>
    obtain ⟨out, hdelete⟩ := Call.run_deleteToTrash hrun
    obtain ⟨apiRel, n, dp, disk, j, hapi, hrel, hreserved, hmade, htrashed⟩ :=
      deleteToTrash_trashed ht hdelete fun apiRel hapi => hclean apiRel (mem_toOption hapi)
    have hout := hsrc _ (mem_source hapi)
    rw [hrel] at hout
    have hg₁ : Guards { s with disk := disk } o q entry := hg.spared rfl (fun _ _ => rfl) rfl
    have hfile₁ : disk.get? (Drive.diskIn { s with disk := disk } (q ++ [entry, s.layout.trashName])) = some e := by
      rw [diskIn_congr s { s with disk := disk } rfl fun _ _ => rfl]
      rcases Tree.get?_mkdirs hmade (s.diskIn (q ++ [entry, s.layout.trashName])) with hsame | ⟨hnone, -, -⟩
      · rw [hsame, hfile]
      · rw [hfile] at hnone
        cases hnone
    have ht₁ := ht.mkdirs_trash hmade
    refine hg₁.shifted ht₁ htrashed.shift hfile₁ hout ?_
    rw [htrashed.origins]
    refine get?_put_of_ne _ _ fun heq => ?_
    apply htrashed.shift.movable.not_above ht₁ hfile₁
    rw [← heq]
    exact suffix_append q _
  | restoreFromTrash trashRel dest =>
    obtain ⟨trashApi, entry', m, dt, s₁, hapi, hrel, hluna, ht₁, hl₁, hi₁, hshift, hm⟩ :=
      restoreFromTrash_shift ht hrun fun trashApi name parent htrash hdest =>
        hclean trashApi (mem_toOption htrash) (name :: parent) (mem_toOption hdest) name rfl
    have hout := hsrc _ (mem_source hapi)
    rw [hrel] at hout
    have hdst : ∀ p, p <:+ q ++ [entry, s.layout.trashName] → ¬ m :: dt <:+ p := by
      intro p hp hsuf
      rcases luna_above_trash (hsuf.trans hp) with ⟨seg, hseg, hname⟩ | hnil
      · rw [hluna seg hseg] at hname
        cases hname
      · cases hnil
    refine hg.spared (hshift.layout.trans hl₁) (fun p hp => ?_) ?_
    · rw [hshift.rows_apart ht₁ (fun hsuf => hout (hsuf.trans hp)) (hdst p hp), hi₁]
    · have hne : entry ≠ entry' := by
        rintro rfl
        exact hout (suffix_append q _)
      rw [hm, get?_erase, if_neg hne]
  | purgeTrash trashRel =>
    obtain ⟨trashApi, hapi, htrash, -, hl, hi, hm⟩ := purgeTrash_purged ht hrun
    have hout := hsrc _ (mem_source hapi)
    refine hg.spared hl (fun p hp => ?_) ?_
    · rw [hi, get?_prune, if_neg fun hsuf => hout (hsuf.trans hp)]
    · rw [hm]
      exact forgetOrigin_get? rfl (fun _ => htrash) hout

theorem extractPrefix_pfx (l : Layout) (rest : Text) : extractPrefix (l.pfx ++ rest) = some l.pfx := by
  obtain ⟨p, hp⟩ := isSome_iff_exists.mp (l.isLunaName_pfx rest)
  obtain ⟨-, -, htake⟩ := extractPrefix_eq_some hp
  obtain ⟨-, -, hpfx⟩ := extractPrefix_eq_some l.valid
  have hlong : 42 ≤ l.pfx.length := length_of_isLunaName (by rw [isLunaName, l.valid]; rfl)
  rw [take_append_of_le_length hlong, ← hpfx] at htake
  rw [hp, htake]

theorem isTrashRel_of_getLast? (h : p.getLast? = some l.trashName) : isTrashRel p = true := by
  rw [isTrashRel, h, any_some, Layout.trashName, extractPrefix_pfx]
  exact decide_eq_true rfl

theorem trashEntryParts_trash (l : Layout) (q : Path) (entry : Text) :
    trashEntryParts (q ++ [entry, l.trashName]) = some (entry, decide (q ≠ [])) := by
  have hsplit : q ++ [entry, l.trashName] = (q ++ [entry]) ++ [l.trashName] := by simp
  have hlen : (2 < (q ++ [entry] ++ [l.trashName]).length) ↔ q ≠ [] := by
    rw [← length_pos_iff]
    simp
  rw [hsplit, trashEntryParts, if_pos (isTrashRel_of_getLast? getLast?_concat),
    dropLast_concat, getLast?_concat, map_some,
    decide_eq_decide.mpr hlen]

theorem Tidy.head?_diskIn_trash (ht : Tidy s) (h : p.head? = some s.layout.trashName) :
    (s.diskIn p).head? = some s.layout.trashName := by
  cases p with
  | nil => cases h
  | cons n d =>
    obtain rfl := some.inj h
    cases hget : s.items.get? (s.layout.trashName :: d) with
    | none =>
      rw [diskIn_cons_none hget]
      rfl
    | some item =>
      have hluna := (ht.proper _ item hget).head
      rw [Layout.trashName, s.layout.isLunaName_pfx] at hluna
      cases hluna

/-- The folder in which something is renamed answers to whom it answered before. -/
theorem Shift.ownerOver_folder (h : Shift s s' n dp m dp) (ht : Tidy s) :
    s'.ownerOver dp = s.ownerOver dp := by
  refine ownerOver_congr fun p hp => h.rows_apart ht (fun hsuf => ?_) fun hsuf => ?_
  · exact Movable.not_into_self n dp (hsuf.trans hp)
  · exact Movable.not_into_self m dp (hsuf.trans hp)

/-- Renamed in its folder, a branch takes its private items along. -/
theorem Shift.ownerOver_renamed (h : Shift s s' n dp m dp) (ht : Tidy s) (r : Path) :
    s'.ownerOver (r ++ m :: dp) = s.ownerOver (r ++ n :: dp) := by
  rcases ownerOver_moved (h.rows_beneath ht) r with ⟨owner, hnew, hold⟩ | ⟨hnew, hold, -⟩
  · rw [hnew, hold]
  · rw [hnew, hold, h.ownerOver_folder ht]

/-- What is renamed above something in the trash is its entry or lies in it. -/
theorem split_in_trash {r : Path} (h : r ++ n :: dp = q ++ [entry, l.trashName])
    (hdp : dp ≠ []) :
    (n = entry ∧ dp = [l.trashName] ∧ r = q) ∨ ∃ d, dp = d ++ [entry, l.trashName] ∧ q = r ++ n :: d := by
  rcases append_eq_append_iff.mp h with ⟨z, hq, hz⟩ | ⟨z, hr, hz⟩
  · cases z with
    | nil =>
      obtain ⟨rfl, rfl⟩ := cons.inj hz
      exact .inl ⟨rfl, rfl, by rw [hq, append_nil]⟩
    | cons a d =>
      obtain ⟨rfl, rfl⟩ := cons.inj hz
      exact .inr ⟨d, rfl, hq⟩
  · match z, hr, hz with
    | [], hr, hz =>
      obtain ⟨rfl, rfl⟩ := cons.inj hz
      exact .inl ⟨rfl, rfl, by rw [hr, append_nil]⟩
    | [_], _, hz =>
      obtain ⟨-, hz⟩ := cons.inj hz
      obtain ⟨-, rfl⟩ := cons.inj hz
      exact absurd rfl hdp
    | _ :: _ :: _, _, hz =>
      have hlen := congrArg length hz
      simp at hlen

/-- What lies inside an entry is renamed without the entry's origin. -/
theorem retitle_deep (n newName : Text) (d : Path) :
    (retitle (n :: (d ++ [entry, s.layout.trashName])) newName s).trashMeta = s.trashMeta := by
  rw [retitle, ← cons_append, trashEntryParts_trash, decide_eq_true (cons_ne_nil n d)]

/-- A file that goes along with a rename in the trash is guarded where it goes. -/
theorem Guards.along {r : Path} (hg : s.Guards o q entry) (ht : Tidy s)
    (hname : isLunaName (renamedTo (n :: dp) newName) = false)
    (hshift : Shift s s' n dp (renamedTo (n :: dp) newName) dp)
    (hm : s'.trashMeta = (retitle (n :: dp) newName s).trashMeta)
    (hx : r ++ n :: dp = q ++ [entry, s.layout.trashName]) (hdp : dp ≠ []) :
    ∃ q' entry', r ++ renamedTo (n :: dp) newName :: dp = q' ++ [entry', s.layout.trashName] ∧ s'.Guards o q' entry' := by
  have howner := hshift.ownerOver_renamed ht r
  have hunsealed : s.layout.Unsealed (r ++ renamedTo (n :: dp) newName :: dp) := by
    have hold := hg.unsealed
    rw [← hx] at hold
    exact unsealed_append.mpr ⟨(unsealed_append.mp hold).1, hshift.movable.target⟩
  have hguard := hg.guard
  rw [← hx, ← howner] at hguard
  rcases split_in_trash hx hdp with ⟨rfl, rfl, rfl⟩ | ⟨d, rfl, rfl⟩
  · -- The entry itself is renamed, and its origin with it.
    refine ⟨r, _, rfl, hshift.layout ▸ hunsealed, hname, ?_⟩
    rw [hshift.layout]
    rcases hguard with hrow | ⟨hnone, ho, found, root, hfound, howner', hroot, halias⟩
    · exact .inl hrow
    have hne : renamedTo [n, s.layout.trashName] newName ≠ n := by
      intro heq
      have hapart := hshift.movable.apart ht
      rw [heq] at hapart
      exact hapart (suffix_refl _)
    obtain ⟨found', hfound', hsame, hpath⟩ := retitle_get?_renamed (trashEntryParts_trash s.layout [] n) hne hfound
    refine .inr ⟨hnone, ho, found', root, ?_, hsame.trans howner', ?_, halias⟩
    · rw [hm, hfound']
    · rw [hpath, hroot]
  · -- Something further down is, and the entry keeps its origin.
    refine ⟨r ++ renamedTo (n :: (d ++ [entry, s.layout.trashName])) newName :: d, entry, ?_, ?_⟩
    · rw [append_assoc, cons_append]
    · refine ⟨?_, hg.plain, ?_⟩
      · rw [hshift.layout, append_assoc]
        exact hunsealed
      · rw [hshift.layout, append_assoc, hm, retitle_deep]
        exact hguard

/-- What goes along with a form stands in its folder under a name of Luna's, or where everyone sees it. -/
theorem companions_cases {a b : Text}
    (h : (a :: s.diskIn dp, b :: s.diskIn dp) ∈ s.companions formHash n m dp) :
    ((isLunaName a = true ∧ a ≠ s.layout.trashName) ∨
      (a = responsesName n ∧ isLunaName ((s.diskLeaf (n :: dp)).getD n) = false ∧
        (s.diskIn dp).head? ≠ some s.layout.trashName)) ∧
    s.layout.isDiskName b = false ∧ (isLunaName b = true ∨ b = responsesName m) := by
  rcases mem_cons.mp h with hdir | hfile
  · obtain ⟨ha, hb⟩ := Prod.mk.inj hdir
    have hluna := formDirName_luna s.layout formHash
    have hne := formDirName_ne_trashName s.layout formHash n []
    have hname : s.layout.isDiskName (formDirName formHash s.layout m ++ []) = false :=
      Layout.isDiskName_formDirName formHash []
    obtain ⟨rfl, -⟩ := cons.inj ha
    obtain ⟨rfl, -⟩ := cons.inj hb
    rw [append_nil] at hne hname
    refine ⟨.inl ⟨?_, hne⟩, hname, .inl ?_⟩
    · simpa using hluna n []
    · simpa using hluna m []
  · split at hfile
    · rename_i a' b' ha' hb'
      obtain ⟨rfl, rfl⟩ := Prod.mk.inj (mem_singleton.mp hfile)
      obtain ⟨-, sega, ha, -, hkind⟩ := responsesFileNamed_cases ha'
      obtain ⟨-, segb, hb, hsegb, hkind'⟩ := responsesFileNamed_cases hb'
      obtain ⟨rfl, -⟩ := cons.inj ha
      obtain ⟨rfl, -⟩ := cons.inj hb
      exact ⟨hkind, hsegb, hkind'.imp And.left And.left⟩
    · cases hfile

theorem eq_of_cons_suffix {a b : Text} {d z : Path} (h : a :: d <:+ z ++ b :: d) : a = b := by
  have hsuf : a :: d <:+ b :: d := suffix_of_suffix_length_le h (suffix_append _ _) (Nat.le_refl _)
  exact (cons.inj (hsuf.eq_of_length rfl)).1

/-- So is a file that goes along because it belongs to a form. -/
theorem Guards.beside {a b : Text} {r : Path} (hg : s.Guards o q entry) (ht : Tidy s)
    (hforms : s.FormsClear (n :: dp)) (hform : isFormPath n = true) (hname : isLunaName m = false)
    (hshift : Shift s s' n dp m dp) (hm : ∀ d, dp = d ++ [entry, s.layout.trashName] → s'.trashMeta = s.trashMeta)
    (hab : (a :: s.diskIn dp, b :: s.diskIn dp) ∈ s.companions formHash n m dp)
    (ha : s.items.get? (a :: dp) = none) (hb : s.items.get? (b :: dp) = none)
    (hfree : s.disk.get? (b :: s.diskIn dp) = none)
    (hx : r ++ a :: dp = q ++ [entry, s.layout.trashName]) :
    ∃ q', r ++ b :: dp = q' ++ [entry, s.layout.trashName] ∧ s'.Guards o q' entry := by
  obtain ⟨hkind, hdisk, hkind'⟩ := companions_cases hab
  have hdp : dp ≠ [] := by
    rintro rfl
    have hlast : a = s.layout.trashName := by simpa using congrArg getLast? hx
    rcases hkind with ⟨-, hne⟩ | ⟨rfl, -, -⟩
    · exact hne hlast
    · rw [responsesName_ends] at hlast
      exact responses_ne_trashName s.layout _ hlast
  rcases split_in_trash hx hdp with ⟨rfl, rfl, rfl⟩ | ⟨d, hd, rfl⟩
  · -- At the top of the trash such a file has a name of Luna's, so no entry was deleted under it.
    rcases hkind with ⟨hluna, -⟩ | ⟨-, -, hhead⟩
    · rw [hg.plain] at hluna
      cases hluna
    · rw [diskIn_cons_none ht.trash_not_item] at hhead
      exact absurd rfl hhead
  · refine ⟨r ++ b :: d, by rw [hd, append_assoc, cons_append], ?_⟩
    have hold : ∀ z, s.items.get? (z ++ a :: dp) = none := by
      intro z
      rw [eq_none_iff_forall_ne_some]
      intro item hitem
      rcases hkind with ⟨hluna, hne⟩ | ⟨rfl, hleaf, hhead⟩
      · exact (ht.proper _ item hitem).not_beneath hluna hne (suffix_append z _)
      refine hforms n dp rfl hform ?_ ?_ _ item hitem (suffix_append z _) ha
      · cases hget : s.items.get? (n :: dp) with
        | none => rfl
        | some form =>
          rw [diskLeaf_some hget, getD_some, s.layout.isLunaName_diskName] at hleaf
          cases hleaf
      · intro heq
        exact hhead (ht.head?_diskIn_trash heq)
    have hnew : ∀ z, s'.items.get? (z ++ b :: dp) = none := by
      intro z
      rw [hshift.rows_apart ht]
      · rw [eq_none_iff_forall_ne_some]
        exact fun item hitem => ht.no_row_beneath hb hfree hitem (suffix_append z _)
      · intro hsuf
        obtain ⟨e, he⟩ := hshift.movable.stands
        obtain rfl := eq_of_cons_suffix hsuf
        rw [diskIn_cons_none hb, hfree] at he
        cases he
      · intro hsuf
        obtain rfl := eq_of_cons_suffix hsuf
        rcases hkind' with hluna | hsame
        · rw [hname] at hluna
          cases hluna
        · have hlong := length_responsesName m
          rw [← hsame] at hlong
          omega
    have howner : s'.ownerOver (r ++ b :: dp) = s.ownerOver (r ++ a :: dp) := by
      rw [ownerOver_append_of_none hold, ownerOver_append_of_none hnew]
      exact hshift.ownerOver_folder ht
    refine ⟨?_, hg.plain, ?_⟩
    · rw [hshift.layout, append_assoc, cons_append, ← hd]
      have hbefore := hg.unsealed
      rw [← hx] at hbefore
      exact unsealed_append.mpr ⟨(unsealed_append.mp hbefore).1, .cons hdisk (unsealed_append.mp hbefore).2.tail⟩
    · rw [hshift.layout, append_assoc, cons_append, ← hd, howner, hx, hm d hd]
      exact hg.guard

end Drive

namespace Drive

variable {o entry : Text} {q : Path}

/-- **One call.** A guarded file of the trash stays guarded wherever in the trash it goes. -/
theorem Guards.step {env : Env} {c : Call} {x x' : Path} (hg : s.Guards o q entry) (ht : Tidy s) {b : List UInt8}
    (hx : x = q ++ [entry, s.layout.trashName]) (hfile : s.disk.get? (s.diskIn x) = some (.file b))
    (hclean : c.Clean s) (hrun : c.run formHash env s = .ok s') (hfollows : c.Follows formHash s x x') :
    ∃ q' entry', x' = q' ++ [entry', s.layout.trashName] ∧ s'.Guards o q' entry' := by
  cases hfollows with
  | stays _ _ hsrc =>
    subst hx
    exact ⟨q, entry, rfl, hg.stays ht hfile hclean hrun hsrc⟩
  | along rel newName n dp r hsource =>
    obtain ⟨apiRel, n', dp', hapi, hrel, htrash, hname, hshift, hm⟩ :=
      rename_shift ht hrun fun apiRel hapi => hclean apiRel (mem_toOption hapi)
    have hsame := mem_source (s := s) hapi
    rw [hrel] at hsame
    obtain ⟨rfl, rfl⟩ := cons.inj (some.inj (hsame.symm.trans hsource))
    have hlast : (n' :: dp').getLast? = some s.layout.trashName := by
      have := congrArg getLast? hx
      rwa [getLast?_append_of_ne_nil _ (cons_ne_nil _ _), getLast?_append_of_ne_nil _ (cons_ne_nil _ _)] at this
    exact hg.along ht hname hshift hm hx (htrash (isTrashRel_of_getLast? hlast)).2
  | beside rel newName n dp r a b' hsource hform hab ha hb hfree =>
    obtain ⟨apiRel, n', dp', hapi, hrel, htrash, hname, hshift, hm⟩ :=
      rename_shift ht hrun fun apiRel hapi => hclean apiRel (mem_toOption hapi)
    have hsame := mem_source (s := s) hapi
    rw [hrel] at hsame
    obtain ⟨rfl, rfl⟩ := cons.inj (some.inj (hsame.symm.trans hsource))
    have hforms := (hclean apiRel (mem_toOption hapi)).1
    rw [hrel] at hforms
    have hdeep : ∀ d, dp' = d ++ [entry, s.layout.trashName] → s'.trashMeta = s.trashMeta := by
      rintro d rfl
      rw [hm, retitle_deep]
    obtain ⟨q', hq', hg'⟩ := hg.beside ht hforms hform hname hshift hdeep hab ha hb hfree hx
    exact ⟨q', entry, hq', hg'⟩

end Drive

/-- **Every run.** A guarded file stays guarded for as long as it lies in the trash. -/
theorem Followed.guards {b : List UInt8} {calls : List (Env × Call)} {x x' : Path}
    (h : Followed formHash b calls s x s' x') {o entry : Text} {q : Path} (hx : x = q ++ [entry, s.layout.trashName])
    (ht : Tidy s) (hg : s.Guards o q entry) :
    s'.layout = s.layout ∧ ∃ q' entry', x' = q' ++ [entry', s'.layout.trashName] ∧ s'.Guards o q' entry' := by
  induction h generalizing q entry with
  | here s x hfile => exact ⟨rfl, q, entry, hx, hg⟩
  | step env c rest s s₁ s' x x₁ x' hfile hclean hrun hfollows hrest ih =>
    obtain ⟨q₁, entry₁, hx₁, hg₁⟩ := hg.step ht hx hfile hclean hrun hfollows
    obtain ⟨ht', hl⟩ := Call.run_tidy ht hclean hrun
    rw [← hl] at hx₁
    obtain ⟨hl', hrest⟩ := ih hx₁ ht' hg₁
    exact ⟨hl'.trans hl, hrest⟩

end LibreServ.Files
