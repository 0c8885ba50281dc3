import LibreServ.Access

/-! The access checks of `auth.rs` that are made for one path, and those that are made for many with the user's rows and
the drive's mount point looked up once. Paths and grants are texts here, as the functions get them. A drive that is not
mounted has an empty mount point; some of the functions treat that as no mount point, some look under it. -/

namespace LibreServ.Files

/-- A row of `access_members`. -/
structure MemberRow where
  userId : Text
  subjectKind : SubjectKind
  driveId : Text
  path : Text
  caps : Caps
  deriving DecidableEq

/-- What the checks read: the people, the grants, the drives and what is mounted where. -/
structure Luna where
  users : List User
  deletedUsers : List Text
  members : List MemberRow
  /-- `mount_point` of a drive's row. -/
  mountPoint : Text → Option Text
  /-- The drive that lies under a path. -/
  root : Text → Option Drive
  /-- Nothing can be read under the empty path. -/
  root_empty : root [] = none

/-- `is_trash_api`. -/
def isTrashText (path : Text) : Bool := path = trashApiAlias || (trashApiAlias ++ ['/']).isPrefixOf path

namespace Luna

variable (l : Luna)

def ownerState (owner : Text) : OwnerState :=
  if owner = sealedOwner then .deleted
  else if l.users.any (·.id = owner) then .active
  else if owner ∈ l.deletedUsers then .deleted
  else .foreign

def ownerKnown (owner : Text) : Bool := l.ownerState owner ≠ .foreign

/-- `owner_states`, read with `Foreign` for an id that is not in it; what comes later replaces what is there. -/
def ownerStates (owner : Text) : OwnerState :=
  if owner ∈ l.deletedUsers then .deleted
  else if l.users.any (·.id = owner) then .active
  else if owner = sealedOwner then .deleted
  else .foreign

def listAccessMembersForUser (user : Text) : List MemberRow := l.members.filter (·.userId = user)

/-- `drive_mount`. -/
def driveMount (drive : Text) : Option Text := (l.mountPoint drive).filter (· ≠ [])

def privateBoundary (mount : Option Text) (path : Text) : Option Boundary := do
  let d ← l.root (← mount)
  d.boundaryFor (d.realRel (segments (normalizeSubjectPath path)))

def unionCaps (rows : List MemberRow) : Caps := rows.foldl (fun caps r => caps ||| r.caps) 0

def privateCaps (user : User) (rows : List MemberRow) (drive path bPath bOwner : Text)
    (ownerKnown : Text → OwnerState) : Caps :=
  if bOwner = sealedOwner ∨ ownerKnown bOwner = .deleted then 0
  else if bOwner = user.id then capManage
  else if user.isAdmin ∧ ownerKnown bOwner = .foreign then capManage
  else
    let path := normalizeSubjectPath path
    unionCaps (rows.filter fun r => r.subjectKind = .path && r.driveId = drive &&
      (containsText (normalizeSubjectPath r.path) path && containsText bPath (normalizeSubjectPath r.path)))

/-- `grant_covers_canonical`. -/
def grantCovers (root grant request : Text) : Bool :=
  match l.root root with
  | some d => d.grantCoversCanonical (segments grant) (segments request)
  | none => false

def memberRowCapsRows (rows : List MemberRow) (drive path : Text) (mount : Option Text) : Caps :=
  unionCaps (rows.filter fun r => r.subjectKind = .path && r.driveId = drive && (containsText r.path path &&
    match mount with
    | some root => l.grantCovers root (normalizeSubjectPath r.path) (normalizeSubjectPath path)
    | none => true))

def memberRowCaps (user : User) (drive path : Text) (mount : Option Text) : Caps :=
  l.memberRowCapsRows (l.listAccessMembersForUser user.id) drive path mount

/-! ### One path -/

/-- A path that is not in the trash, or has been brought to where it came from. -/
def capsOnPathFrom (user : User) (drive path : Text) (mount : Option Text) : Caps :=
  match l.privateBoundary mount path with
  | some b =>
    privateCaps user (l.listAccessMembersForUser user.id) drive path (spelled b.path) b.owner l.ownerState
  | none => if user.isAdmin then capManage else l.memberRowCaps user drive path mount

def capsOnPath (user : User) (drive path : Text) : Caps :=
  let mount := l.driveMount drive
  if isTrashText path then
    match l.privateBoundary mount path with
    | some b =>
      privateCaps user (l.listAccessMembersForUser user.id) drive path (spelled b.path) b.owner l.ownerState
    | none =>
      match (mount.bind l.root).bind (·.trashPrivateMeta (segments path)) with
      | some found =>
        privateCaps user (l.listAccessMembersForUser user.id) drive path found.privatePath
          found.privateOwner l.ownerState
      | none =>
        match (mount.bind l.root).bind (·.trashOriginalPath (segments path)) with
        | some origin => l.capsOnPathFrom user drive (spelled origin) mount
        | none => l.capsOnPathFrom user drive path mount
  else l.capsOnPathFrom user drive path mount

/-- `can_access` for reading. -/
def canView (user : User) (drive path : Text) : Bool := l.capsOnPath user drive path &&& capView = capView

def wallsOffAdmin (drive norm : Text) : Bool :=
  (l.privateBoundary (l.driveMount drive) norm).any fun b => l.ownerKnown b.owner

def ownedPrivatePaths (user drive : Text) : List Text :=
  match (l.driveMount drive).bind l.root with
  | some d => (d.items.rows.filter fun r => r.2.owner = user).map fun r => spelled r.1
  | none => []

def browseRowsWalk (drive norm : Text) (rows : List MemberRow) : Bool :=
  rows.any fun r =>
    if r.subjectKind ≠ .path ∨ r.driveId ≠ drive then false
    else if r.caps &&& capView = 0 then false
    else
      let memberPath := normalizeSubjectPath r.path
      if memberPath = [] then norm = [] else if norm = [] then true else containsText norm memberPath

def canBrowsePath (user : User) (drive path : Text) : Bool :=
  let norm := normalizeSubjectPath path
  if l.canView user drive norm then true
  else if user.isAdmin && !l.wallsOffAdmin drive norm then true
  -- The mount point as it stands in the row, empty or not.
  else if (l.privateBoundary (l.mountPoint drive) norm).any fun b => l.ownerState b.owner = .deleted then false
  else if (l.ownedPrivatePaths user.id drive).any fun p => containsText norm p then true
  else browseRowsWalk drive norm (l.listAccessMembersForUser user.id)

/-! ### Many paths -/

def capsOnPathRowsAt (user : User) (drive path : Text) (rows : List MemberRow) (mount : Option Text) : Caps :=
  match l.privateBoundary mount path with
  | some b => privateCaps user rows drive path (spelled b.path) b.owner l.ownerState
  | none => if user.isAdmin then capManage else l.memberRowCapsRows rows drive path mount

def capsOnPathRows (user : User) (drive path : Text) (rows : List MemberRow) : Caps :=
  l.capsOnPathRowsAt user drive path rows (l.driveMount drive)

def capsOnPathPreloaded (user : User) (drive path : Text) (rows : List MemberRow) (mount : Option Text)
    (ownerKnown : Text → OwnerState) : Caps :=
  match l.privateBoundary mount path with
  | some b => privateCaps user rows drive path (spelled b.path) b.owner ownerKnown
  | none => if user.isAdmin then capManage else l.memberRowCapsRows rows drive path mount

def canBrowsePathPreloaded (user : User) (drive path : Text) (caps : Caps) (rows : List MemberRow)
    (owned : List Text) (mount : Option Text) (ownerKnown : Text → OwnerState) : Bool :=
  let norm := normalizeSubjectPath path
  if caps &&& capView = capView then true
  else if user.isAdmin && !(l.privateBoundary mount norm).any fun b => ownerKnown b.owner ≠ .foreign then true
  else if (l.privateBoundary mount norm).any fun b => ownerKnown b.owner = .deleted then false
  else if owned.any fun p => containsText norm p then true
  else browseRowsWalk drive norm rows

/-! ### The files of one drive -/

/-- `InspectCtx`. -/
structure InspectCtx where
  driveId : Text
  mount : Option Text
  rows : List MemberRow

def inspectCtx (user : User) (drive : Text) : InspectCtx :=
  ⟨drive, l.mountPoint drive, l.listAccessMembersForUser user.id⟩

def capsOnPathIn (user : User) (ctx : InspectCtx) (path : Text) : Caps :=
  if isTrashText path then l.capsOnPath user ctx.driveId path
  else l.capsOnPathRowsAt user ctx.driveId path ctx.rows (ctx.mount.filter (· ≠ []))

def inspectByGrant (user : User) (drive norm : Text) (mount : Option Text) (rows : List MemberRow) : Bool :=
  if (l.privateBoundary mount norm).any fun b => l.ownerState b.owner = .deleted then false
  else if norm = [] then
    !(l.ownedPrivatePaths user.id drive).isEmpty || rows.any fun r => r.subjectKind = .path && r.driveId = drive
  else rows.any fun r => r.subjectKind = .path && r.driveId = drive && normalizeSubjectPath r.path = norm

def canInspectPathSlow (user : User) (drive path norm : Text) : Bool :=
  if l.canView user drive path then true
  else if user.isAdmin && !l.wallsOffAdmin drive norm then true
  else l.inspectByGrant user drive norm (l.mountPoint drive) (l.listAccessMembersForUser user.id)

def canInspectPathIn (user : User) (ctx : InspectCtx) (path : Text) : Bool :=
  let norm := normalizeSubjectPath path
  if isTrashText path then l.canInspectPathSlow user ctx.driveId path norm
  else
    let liveMount := ctx.mount.filter (· ≠ [])
    if l.capsOnPathRowsAt user ctx.driveId path ctx.rows liveMount &&& capView = capView then true
    else if user.isAdmin && !(l.privateBoundary liveMount norm).any fun b => l.ownerKnown b.owner then true
    else l.inspectByGrant user ctx.driveId norm ctx.mount ctx.rows

/-! ### They agree -/

variable {l} {user : User} {drive path : Text}

/-- An empty mount point has nothing under it. -/
theorem privateBoundary_mountPoint (drive norm : Text) :
    l.privateBoundary (l.mountPoint drive) norm = l.privateBoundary (l.driveMount drive) norm := by
  unfold privateBoundary driveMount
  cases hmount : l.mountPoint drive with
  | none => rfl
  | some m =>
    by_cases hm : m = []
    · rw [hm]
      simp [Option.filter, l.root_empty]
    · simp [Option.filter, hm]

theorem capsOnPath_eq (h : isTrashText path = false) : l.capsOnPath user drive path =
      l.capsOnPathRowsAt user drive path (l.listAccessMembersForUser user.id) (l.driveMount drive) := by
  rw [capsOnPath, h]
  rfl

theorem capsOnPathPreloaded_eq (rows : List MemberRow) (mount : Option Text) :
    l.capsOnPathPreloaded user drive path rows mount l.ownerState = l.capsOnPathRowsAt user drive path rows mount := rfl

theorem wallsOffAdmin_eq (drive norm : Text) : l.wallsOffAdmin drive norm =
    (l.privateBoundary (l.driveMount drive) norm).any fun b => l.ownerState b.owner ≠ .foreign := rfl

/-- A canonical path is the one that grants are compared on. -/
theorem normalizeSubjectPath_of_canonical (h : canonicalRel path = .ok path) : normalizeSubjectPath path = path := by
  obtain ⟨-, hpath, -⟩ := canonicalRel_ok h
  rw [normalizeSubjectPath_eq]
  exact hpath.symm

/-- The states that are looked up once are those that are looked up one by one, unless somebody is both a user and
deleted. -/
theorem ownerStates_eq (h : ∀ u ∈ l.users, u.id ∉ l.deletedUsers) (hsealed : ∀ u ∈ l.users, u.id ≠ sealedOwner)
    (owner : Text) : l.ownerStates owner = l.ownerState owner := by
  have hdeleted : owner ∈ l.deletedUsers ∨ owner = sealedOwner → l.users.any (·.id = owner) = false := by
    intro howner
    rw [List.any_eq_false]
    intro u hu huser
    rcases howner with hd | hs
    · exact h u hu (of_decide_eq_true huser ▸ hd)
    · exact hsealed u hu ((of_decide_eq_true huser).trans hs)
  rw [ownerStates, ownerState]
  by_cases hs : owner = sealedOwner
  · rw [hdeleted (.inr hs), if_pos hs, if_pos hs]
    simp
  · rw [if_neg hs, if_neg hs]
    by_cases hd : owner ∈ l.deletedUsers
    · rw [hdeleted (.inl hd)]
      simp [hd]
    · simp [hd]

/-- **Every check gives one answer.** Outside the trash all four ways to the capabilities agree, a browser may walk a
canonical path whether its context was looked up for it or once for all, and a listing shows what the check for the
single path admits. -/
theorem checks_agree (l : Luna) (user : User) (drive path : Text) (hcanonical : canonicalRel path = .ok path)
    (htrash : isTrashText path = false) :
    l.capsOnPathRows user drive path (l.listAccessMembersForUser user.id) = l.capsOnPath user drive path ∧
    l.capsOnPathPreloaded user drive path (l.listAccessMembersForUser user.id) (l.driveMount drive) l.ownerState =
      l.capsOnPath user drive path ∧
    l.capsOnPathIn user (l.inspectCtx user drive) path = l.capsOnPath user drive path ∧
    l.canBrowsePathPreloaded user drive path (l.capsOnPath user drive path) (l.listAccessMembersForUser user.id)
      (l.ownedPrivatePaths user.id drive) (l.driveMount drive) l.ownerState = l.canBrowsePath user drive path ∧
    l.canInspectPathIn user (l.inspectCtx user drive) path =
      l.canInspectPathSlow user drive path (normalizeSubjectPath path) := by
  have hcaps : l.capsOnPath user drive path = _ := capsOnPath_eq htrash
  have hnorm : normalizeSubjectPath path = path := normalizeSubjectPath_of_canonical hcanonical
  refine ⟨hcaps.symm, ?_, ?_, ?_, ?_⟩
  · rw [capsOnPathPreloaded_eq, hcaps]
  · rw [capsOnPathIn, htrash, hcaps]
    rfl
  · rw [canBrowsePath, canBrowsePathPreloaded]
    simp only [canView, wallsOffAdmin_eq, privateBoundary_mountPoint, hnorm, decide_eq_true_eq]
  · rw [canInspectPathSlow, canView, hcaps, canInspectPathIn]
    simp only [htrash, Bool.false_eq_true, decide_eq_true_eq]
    rfl

/-- One person with a view grant on the folder `a` of a drive that is not mounted. -/
def oneGrant : Luna where
  users := [⟨['u'], "member"⟩]
  deletedUsers := []
  members := [⟨['u'], .path, ['d'], ['a'], capView⟩]
  mountPoint _ := some []
  root _ := none
  root_empty := rfl

theorem checks_agree_below_grant : oneGrant.capsOnPath ⟨['u'], "member"⟩ ['d'] ['a', '/', 'b'] = capView ∧
      oneGrant.capsOnPathIn ⟨['u'], "member"⟩ (oneGrant.inspectCtx ⟨['u'], "member"⟩ ['d']) ['a', '/', 'b'] =
        oneGrant.capsOnPath ⟨['u'], "member"⟩ ['d'] ['a', '/', 'b'] :=
  ⟨by decide, (checks_agree oneGrant ⟨['u'], "member"⟩ ['d'] ['a', '/', 'b'] (by decide) (by decide)).2.2.1⟩

end Luna

end LibreServ.Files
