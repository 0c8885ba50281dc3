import LibreServ.Loops
import LibreServ.PrivateInStep
import LibreServ.Walks

/-! Putting the rows of a drive back in step with it, from `load` and `reconcile` in `private.rs`. The drive may have
been edited elsewhere. Where the entry of some row is not where its row says, the drive is searched for the entries, the
real paths are worked out again from where they are, and the rows left over are deleted. -/

namespace LibreServ.Files.Reconcile

open FileTree Table

/-- What the file system answers to `read_dir` and to `symlink_metadata`. -/
structure Sight where
  lists : Path → Bool
  stats : Path → Bool

/-- The orders that names come out of a folder and rows out of a hash map. -/
structure Orders where
  names : Path → List Text → List Text
  rows : List (Path × Item) → List (Path × Item)
  updates : List (Path × Item) → List (Path × Item)
  names_perm : ∀ d l, (names d l).Perm l
  rows_perm : ∀ l, (rows l).Perm l
  updates_perm : ∀ l, (updates l).Perm l

/-- The rows in memory and those in the drive's database. -/
structure Reconciled where
  memory : Table Path Item
  stored : Table Path Item

variable (s : Drive) (sight : Sight) (ord : Orders)

/-- Some row's entry is not where its row says. -/
def lost : Bool := s.items.any fun p _ => !(sight.stats (s.diskIn p) && (s.disk.get? (s.diskIn p)).isSome)

/-! ### The search -/

/-- The loop over a folder: its subfolders go on the stack, and the entries of rows are noted down. -/
def look (dir : Path) (st : List Path × Table ItemId Path) (name : Text) : List Path × Table ItemId Path :=
  let push (stack : List Path) := if s.disk.get? (name :: dir) = some .dir then (name :: dir) :: stack else stack
  if ¬ sight.stats (name :: dir) then st
  else
    match s.rowOf name with
    | some r => (push st.1, st.2.put r.2.id dir)
    | none => if isLunaName name ∧ name ≠ s.layout.trashName then st else (push st.1, st.2)

def readDir (dir : Path) (st : List Path × Table ItemId Path) : List Path × Table ItemId Path :=
  if sight.lists dir then (ord.names dir ((s.disk.children dir).map Prod.fst)).foldl (look s sight dir) st else st

def search : Nat → List Path × Table ItemId Path → Option (Table ItemId Path)
  | _, ([], found) => some found
  | 0, (_ :: _, _) => none
  | n + 1, (dir :: stack, found) => search n (readDir s sight ord dir (stack, found))

/-! ### The real paths -/

/-- The real path of a folder, once those of the private folders on the way are known. -/
def parentOf (resolved : Table Path Item) : Path → Option Path
  | [] => some []
  | seg :: d =>
    match parentOf resolved d with
    | none => none
    | some parent =>
      match resolved.rows.find? fun r => s.layout.diskName r.2.id = seg with
      | some up => some up.1
      | none => if s.layout.lead.isPrefixOf seg then none else some (seg :: parent)

def resolveOne (found : Table ItemId Path) (resolved : Table Path Item) (r : Path × Item) : Option Path := do
  let dir ← found.get? r.2.id
  let parent ← parentOf s resolved dir
  return r.1.head?.getD [] :: parent

/-- `retain`: a row stays pending, or it is resolved. -/
def retain (found : Table ItemId Path) (st : List (Path × Item) × Table Path Item) (r : Path × Item) :
    List (Path × Item) × Table Path Item :=
  match resolveOne s found st.2 r with
  | none => (st.1 ++ [r], st.2)
  | some path => (st.1, st.2.put path r.2)

def pass (found : Table ItemId Path) (st : List (Path × Item) × Table Path Item) :
    List (Path × Item) × Table Path Item := st.1.foldl (retain s found) ([], st.2)

def resolveAll (found : Table ItemId Path) (pending : List (Path × Item)) : List (Path × Item) × Table Path Item :=
  Loops.rounds (pass s found) (fun st => st.1.length) 64 (pending, Table.empty)

/-! ### The database -/

/-- `DELETE FROM private_items WHERE id = ?`. -/
def deleteRow (stored : Table Path Item) (r : Path × Item) : Table Path Item :=
  stored.keep fun _ item => item.id ≠ r.2.id

/-- `UPDATE private_items SET path = ? WHERE id = ?`, which fails where another row has the path. -/
def updateRow (stored : Table Path Item) (r : Path × Item) : Table Path Item :=
  match stored.rows.find? fun row => row.2.id = r.2.id with
  | none => stored
  | some row =>
    if row.1 = r.1 ∨ (stored.get? r.1).isSome then stored else (stored.erase row.1).put r.1 row.2

def reconcile : Option Reconciled :=
  if s.items.rows = [] ∨ lost s sight = false then some ⟨s.items, s.items⟩
  else do
    let found ← search s sight ord (s.disk.rows.length + 1) ([[]], Table.empty)
    let (pending, resolved) := resolveAll s found (ord.rows s.items.rows)
    let stored := (ord.updates resolved.rows).foldl updateRow (pending.foldl deleteRow s.items)
    return ⟨resolved, stored⟩

/-! ### What is asked of it -/

def stands (id : ItemId) (dir : Path) : Bool := (s.disk.get? (s.layout.diskName id :: dir)).isSome

/-- The real path of a place on the drive. -/
def realPath (p : Path) : Path := p.map s.realName

/-- No row whose entry stands on the drive is gone, and each row that is there has the real path of the one place where
its entry is. No two rows have one path, as they are kept by it. -/
structure Sound (rows : Table Path Item) : Prop where
  kept : ∀ p item d, s.items.get? p = some item → stands s item.id d = true → ∃ p', rows.get? p' = some item
  placed : ∀ p item, rows.get? p = some item →
    ∃ d, (∀ d', stands s item.id d' = true ↔ d' = d) ∧ p = realPath s (s.layout.diskName item.id :: d)

def LosesNothing : Prop := ∀ ord, ∃ r, reconcile s sight ord = some r ∧ Sound s r.memory ∧ Sound s r.stored

/-- A folder that the search goes into. -/
def passable (name : Text) : Bool := (s.rowOf name).isSome || !isLunaName name || name = s.layout.trashName

def walked : Path → Bool
  | [] => true
  | name :: d => walked d && sight.lists d && sight.stats (name :: d) && passable s name && s.disk.get? (name :: d) = some .dir

/-- The private folders on the way. -/
def nesting (d : Path) : Nat := d.countP fun name => (s.rowOf name).isSome

/-- The entry of a row is reached, lies in no trash and beneath fewer than 64 private folders, and no other row with an
entry has its real path, neither by where its entry is nor by what it says itself. -/
structure Settles (item : Item) (d : Path) : Prop where
  reached : walked s sight d = true ∧ sight.lists d = true ∧ sight.stats (s.layout.diskName item.id :: d) = true
  untrashed : s.layout.trashName ∉ d
  shallow : nesting s d < 64
  apart : ∀ q other d', s.items.get? q = some other → other.id ≠ item.id → stands s other.id d' = true →
    realPath s (s.layout.diskName other.id :: d') ≠ realPath s (s.layout.diskName item.id :: d) ∧
      q ≠ realPath s (s.layout.diskName item.id :: d)

/-- No row has two entries, and if any is lost, all that are there settle. -/
structure Reconcilable : Prop where
  single : ∀ p item d d', s.items.get? p = some item → stands s item.id d = true → stands s item.id d' = true → d' = d
  settles : lost s sight = true → ∀ p item d, s.items.get? p = some item → stands s item.id d = true →
    Settles s sight item d

/-- Rows as the calls make them, on a drive where every entry lies in a folder. -/
structure Known : Prop where
  grown : Grown s.disk
  named : ∀ p item, s.items.get? p = some item → p ≠ []
  unsealed : ∀ p item, s.items.get? p = some item → s.layout.Unsealed p
  ids : s.IdsDiffer

/-! ### Both can be computed -/

/-- The folders that hold an entry of this id. -/
def places (id : ItemId) : List Path :=
  s.disk.keys.filterMap fun p => if p.head? = some (s.layout.diskName id) then some p.tail else none

variable {s sight}

theorem mem_places {id : ItemId} {d : Path} : d ∈ places s id ↔ stands s id d = true := by
  rw [places, List.mem_filterMap, stands, Option.isSome_iff_exists, ← mem_keys]
  constructor
  · rintro ⟨p, hp, hd⟩
    split at hd
    · rename_i hhead
      obtain rfl := Option.some.inj hd
      cases p with
      | nil => cases hhead
      | cons name p =>
        rw [← Option.some.inj hhead]
        exact hp
    · cases hd
  · intro hmem
    exact ⟨_, hmem, if_pos rfl⟩

theorem settles_iff {item : Item} {d : Path} : Settles s sight item d ↔
    (walked s sight d = true ∧ sight.lists d = true ∧ sight.stats (s.layout.diskName item.id :: d) = true) ∧
      s.layout.trashName ∉ d ∧ nesting s d < 64 ∧ ∀ r ∈ s.items.rows, r.2.id ≠ item.id → ∀ d' ∈ places s r.2.id,
        realPath s (s.layout.diskName r.2.id :: d') ≠ realPath s (s.layout.diskName item.id :: d) ∧
          r.1 ≠ realPath s (s.layout.diskName item.id :: d) := by
  constructor
  · intro h
    exact ⟨h.reached, h.untrashed, h.shallow, fun r hr hid d' hd' =>
      h.apart r.1 r.2 d' (mem_rows.mp hr) hid (mem_places.mp hd')⟩
  · rintro ⟨hreached, htrash, hshallow, hapart⟩
    exact ⟨hreached, htrash, hshallow, fun q other d' hq hid hd' =>
      hapart (q, other) (mem_rows.mpr hq) hid d' (mem_places.mpr hd')⟩

instance (item : Item) (d : Path) : Decidable (Settles s sight item d) := decidable_of_iff' _ settles_iff

theorem reconcilable_iff : Reconcilable s sight ↔
    (∀ r ∈ s.items.rows, ∀ d ∈ places s r.2.id, ∀ d' ∈ places s r.2.id, d' = d) ∧
      (lost s sight = true → ∀ r ∈ s.items.rows, ∀ d ∈ places s r.2.id, Settles s sight r.2 d) := by
  constructor
  · intro h
    exact ⟨fun r hr d hd d' hd' => h.single r.1 r.2 d d' (mem_rows.mp hr) (mem_places.mp hd) (mem_places.mp hd'),
      fun hlost r hr d hd => h.settles hlost r.1 r.2 d (mem_rows.mp hr) (mem_places.mp hd)⟩
  · rintro ⟨hsingle, hsettles⟩
    exact ⟨fun p item d d' hp hd hd' =>
        hsingle (p, item) (mem_rows.mpr hp) d (mem_places.mpr hd) d' (mem_places.mpr hd'),
      fun hlost p item d hp hd => hsettles hlost (p, item) (mem_rows.mpr hp) d (mem_places.mpr hd)⟩

instance : Decidable (Reconcilable s sight) := decidable_of_iff' _ reconcilable_iff

instance (l : Layout) (p : Path) : Decidable (l.Unsealed p) := inferInstanceAs (Decidable (∀ seg ∈ p, l.isDiskName seg = false))

theorem known_iff : Known s ↔ (∀ p ∈ s.disk.keys, p.tail = [] ∨ s.disk.get? p.tail = some .dir) ∧
    (∀ r ∈ s.items.rows, r.1 ≠ [] ∧ s.layout.Unsealed r.1) ∧
      ∀ r ∈ s.items.rows, ∀ r' ∈ s.items.rows, r.2.id = r'.2.id → r.1 = r'.1 := by
  constructor
  · intro h
    refine ⟨fun p hp => ?_, fun r hr => ⟨h.named r.1 r.2 (mem_rows.mp hr), h.unsealed r.1 r.2 (mem_rows.mp hr)⟩,
      fun r hr r' hr' hid => h.ids _ _ _ _ (mem_rows.mp hr) (mem_rows.mp hr') hid⟩
    cases p with
    | nil => exact .inl rfl
    | cons name d =>
      obtain ⟨e, he⟩ := mem_keys.mp hp
      exact h.grown name d e trivial he
  · rintro ⟨hgrown, hrows, hids⟩
    exact ⟨fun name d e _ he => hgrown (name :: d) (mem_keys.mpr ⟨e, he⟩),
      fun p item hp => (hrows (p, item) (mem_rows.mpr hp)).1,
      fun p item hp => (hrows (p, item) (mem_rows.mpr hp)).2,
      fun p p' item item' hp hp' hid => hids (p, item) (mem_rows.mpr hp) (p', item') (mem_rows.mpr hp') hid⟩

instance : Decidable (Known s) := decidable_of_iff' _ known_iff

end LibreServ.Files.Reconcile
