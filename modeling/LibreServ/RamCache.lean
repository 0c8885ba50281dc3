import LibreServ.Table
import LibreServ.Paths

/-! The caches Luna keeps in memory above a drive, from `drives/ram_cache.rs`: directory listings, which may be
dropped at any time, and the buffers of small saves on their way to the drive, which may not. Each function is
what its source does under the lock. A path is the list of its segments, innermost first, and a key pairs a
drive's id with a path in it. -/

namespace LibreServ.RamCache

open Files (Text)

abbrev Rel := List Text

abbrev Key := String × Rel

inductive Kind where
  | dir
  | symlink
  | file
  | other
  deriving DecidableEq

structure FileEntry where
  name : Text
  kind : Kind
  size : Nat
  modified : Int
  hidden : Bool
  saving : Bool
  saveFailed : Bool
  deriving DecidableEq

/-- The entries of a folder as somebody read them. The code keeps `entries` only; `seen` is a history variable,
the number of changes the folder had been through when they were read, and no function looks at it. -/
structure Reading where
  entries : List FileEntry
  seen : Nat
  deriving DecidableEq

structure ListingEntry where
  read : Reading
  dirMtime : Int
  filledAt : Nat
  writeGen : Nat
  deriving DecidableEq

inductive DirtyState where
  | writing
  | flushing
  | durable
  deriving DecidableEq

/-- A save that waits for the drive. `ticket` is a history variable: how many saves were accepted before it. -/
structure DirtyFile where
  bytes : List UInt8
  modified : Int
  state : DirtyState
  name : Text
  overwrite : Bool
  cancelled : Bool
  ticket : Nat
  deriving DecidableEq

structure FailedSave where
  name : Text
  at_ : Nat
  modified : Int
  ticket : Nat
  deriving DecidableEq

structure Inner where
  listings : Table Key ListingEntry
  listingOrder : List Key
  dirty : Table Key DirtyFile
  dirtyBytes : Nat
  closing : List String
  failed : Table Key FailedSave

def Inner.new : Inner := ⟨.empty, [], .empty, 0, [], .empty⟩

/-- Nanoseconds, as an `Instant` counts them. -/
def listingTrustTtl : Nat := 2 * 10 ^ 9

def maxListings : Nat := 1024

def maxFailedSaves : Nat := 1024

def parentRel (rel : Rel) : Rel := rel.tail

/-! ### How often Luna wrote to each drive -/

abbrev WriteGens := Table String Nat

def driveWriteGen (gens : WriteGens) (drive : String) : Nat := (gens.get? drive).getD 0

def noteDriveWrite (gens : WriteGens) (drive : String) : WriteGens :=
  gens.put drive (driveWriteGen gens drive + 1)

theorem driveWriteGen_noteDriveWrite (gens : WriteGens) (drive drive' : String) :
    driveWriteGen (noteDriveWrite gens drive) drive' =
      if drive' = drive then driveWriteGen gens drive + 1 else driveWriteGen gens drive' := by
  simp only [driveWriteGen, noteDriveWrite, Table.get?_put]
  split <;> rfl

/-! ### Listings -/

def evictOneListing (g : Inner) : Inner :=
  match g.listingOrder with
  | [] => g
  | key :: rest => { g with listings := g.listings.erase key, listingOrder := rest }

/-- A listing is stamped with the count of writes at the time it is put, not at the time it was read. -/
def putListing (gens : WriteGens) (now : Nat) (key : Key) (dirMtime : Int) (read : Reading) (g : Inner) : Inner :=
  let room := if (g.listings.get? key).isNone && maxListings ≤ g.listings.rows.length then evictOneListing g else g
  { room with
    listings := room.listings.put key ⟨read, dirMtime, now, driveWriteGen gens key.1⟩
    listingOrder := room.listingOrder.filter (· ≠ key) ++ [key] }

/-- Hot listing when still trusted or when `dirMtime` matches. -/
def getListing (gens : WriteGens) (now : Nat) (key : Key) (dirMtime : Option Int) (g : Inner) :
    Option Reading × Inner :=
  match g.listings.get? key with
  | none => (none, g)
  | some entry =>
    if entry.writeGen ≠ driveWriteGen gens key.1 then
      (none, { g with
        listings := g.listings.erase key
        listingOrder := g.listingOrder.filter (· ≠ key) })
    else if now - entry.filledAt ≤ listingTrustTtl ∨ dirMtime = some entry.dirMtime then
      (some entry.read, { g with listingOrder := g.listingOrder.filter (· ≠ key) ++ [key] })
    else (none, g)

def invalidateListing (key : Key) (g : Inner) : Inner :=
  { g with
    listings := g.listings.erase key
    listingOrder := g.listingOrder.filter (· ≠ key) }

/-- The listings `invalidate_listing_tree` retains. -/
def outsideTree (drive : String) (rel : Rel) (k : Key) : Bool :=
  k.1 ≠ drive || !(k.2 = parentRel rel || k.2 = rel || rel = [] || rel.isSuffixOf k.2)

def invalidateListingTree (drive : String) (rel : Rel) (g : Inner) : Inner :=
  { g with
    listings := g.listings.keep fun k _ => outsideTree drive rel k
    listingOrder := g.listingOrder.filter fun k =>
      ((g.listings.keep fun k _ => outsideTree drive rel k).get? k).isSome }

/-! ### Saves that wait for the drive -/

structure CacheBudget where
  dirtyMaxFileBytes : Nat
  dirtyBytes : Nat

/-- What an upload hands over, with the time of day it comes at. -/
structure Save where
  name : Text
  bytes : List UInt8
  overwrite : Bool
  modified : Int

/-- A change to the listing of the folder a path sits in, if there is one. -/
def changeParent (key : Key) (f : ListingEntry → ListingEntry) (k : Key) (l : ListingEntry) : ListingEntry :=
  if k = (key.1, parentRel key.2) then f l else l

section

variable (toLowercase : Text → Text)

/-- Folders first, then by name, whatever the capitals. -/
def listedBefore (a b : FileEntry) : Bool :=
  if a.kind = .dir ∧ b.kind ≠ .dir then true
  else if a.kind ≠ .dir ∧ b.kind = .dir then false
  else toLowercase a.name ≤ toLowercase b.name

def savingEntry (save : Save) : FileEntry where
  name := save.name
  kind := .file
  size := save.bytes.length
  modified := save.modified
  hidden := save.name.head? = some '.'
  saving := true
  saveFailed := false

/-- The first entry of that name, changed by `f`. -/
def changeFirst (name : Text) (f : FileEntry → FileEntry) : List FileEntry → List FileEntry
  | [] => []
  | e :: rest => if e.name = name then f e :: rest else e :: changeFirst name f rest

def showSaving (save : Save) (entries : List FileEntry) : List FileEntry :=
  if entries.any (·.name = save.name) then changeFirst save.name (fun _ => savingEntry save) entries
  else (entries ++ [savingEntry save]).mergeSort (listedBefore toLowercase)

def acceptDirty (budget : CacheBudget) (now : Nat) (key : Key) (save : Save) (ticket : Nat) (g : Inner) :
    Except String Inner :=
  if save.bytes.length = 0 ∨ budget.dirtyMaxFileBytes < save.bytes.length then
    .error
      "This file is too large to hold in memory while saving. Luna will write it straight to the drive."
  else if key.1 ∈ g.closing then .error "This drive is being ejected."
  else if (g.dirty.get? key).any (·.state = .flushing) then
    .error "An earlier save of this file is still finishing."
  else
    let old := ((g.dirty.get? key).map (·.bytes.length)).getD 0
    if budget.dirtyBytes < g.dirtyBytes + (save.bytes.length - old) then
      .error
        "Luna is low on memory. Wait a moment and try saving again, or free some space by closing other apps."
    else
      .ok { g with
        dirtyBytes := g.dirtyBytes - old + save.bytes.length
        failed := g.failed.erase key
        dirty := g.dirty.put key
          ⟨save.bytes, save.modified, .writing, save.name, save.overwrite, false, ticket⟩
        listings := g.listings.update <| changeParent key fun l =>
          { l with read := { l.read with entries := showSaving toLowercase save l.read.entries }, filledAt := now } }

end

/-- Drop a buffer together with the bytes it counted for. -/
def takeDirty (key : Key) (g : Inner) : Inner :=
  { g with
    dirty := g.dirty.erase key
    dirtyBytes := g.dirtyBytes - ((g.dirty.get? key).map (·.bytes.length)).getD 0 }

def finishDurable (key : Key) (g : Inner) : Inner :=
  let name := key.2.head?.getD []
  { takeDirty key g with
    listings := g.listings.update <| changeParent key fun l =>
      { l with read := { l.read with
          entries := changeFirst name (fun e => { e with saving := false }) l.read.entries } } }

def removeDirty (key : Key) (g : Inner) : Inner :=
  let g := { g with failed := g.failed.erase key }
  match g.dirty.get? key with
  | none => g
  | some d =>
    if d.state = .flushing then { g with dirty := g.dirty.put key { d with cancelled := true } }
    else takeDirty key g

/-- `min_by_key` on the time of the failure. -/
def oldestFailed (failed : Table Key FailedSave) : Option Key :=
  (failed.rows.argmin fun r => r.2.at_).map Prod.fst

def failLocked (now : Nat) (key : Key) (g : Inner) : Inner :=
  match g.dirty.get? key with
  | none => g
  | some old =>
    let g := takeDirty key g
    if old.cancelled then g
    else
      let kept :=
        if maxFailedSaves ≤ g.failed.rows.length then
          match oldestFailed g.failed with
          | some oldest => g.failed.erase oldest
          | none => g.failed
        else g.failed
      { g with failed := kept.put key ⟨old.name, now, old.modified, old.ticket⟩ }

def markFailed (now : Nat) (key : Key) (g : Inner) : Inner :=
  let g := failLocked now key g
  { g with listings := g.listings.erase (key.1, parentRel key.2) }

def dropDrive (now : Nat) (drive : String) (g : Inner) : Inner :=
  let kept := g.listings.keep fun k _ => k.1 ≠ drive
  let g := { g with
    listings := kept
    listingOrder := g.listingOrder.filter fun k => (kept.get? k).isSome }
  (g.dirty.keys.filter fun k => k.1 = drive).foldl (fun g k => failLocked now k g) g

def beginClose (drive : String) (g : Inner) : Inner := { g with closing := g.closing.insert drive }

def endClose (drive : String) (g : Inner) : Inner := { g with closing := g.closing.filter (· ≠ drive) }

/-! ### A flush, by the sections it holds the lock for -/

/-- What `flush_dirty_to_disk` finds when it looks for its buffer. -/
inductive Claim where
  | nothing
  | wait
  | claimed (d : DirtyFile) (g : Inner)

def claim (key : Key) (g : Inner) : Claim :=
  match g.dirty.get? key with
  | none => .nothing
  | some d =>
    match d.state with
    | .flushing => .wait
    | .durable => .nothing
    | .writing => .claimed d { g with dirty := g.dirty.put key { d with state := .flushing } }

/-- Between the two halves of a write the flusher asks only whether a buffer that is not cancelled stands under
its key. -/
def isCancelled (key : Key) (g : Inner) : Bool := (g.dirty.get? key).all (·.cancelled)

/-- How `write_claimed` ended. -/
inductive Written where
  | landed
  | discarded
  | failed
  deriving DecidableEq

def settle (key : Key) (written : Written) (g : Inner) : Inner :=
  match written with
  | .landed => finishDurable key g
  | .discarded => takeDirty key g
  | .failed => { g with dirty := g.dirty.update fun k d => if k = key then { d with state := .writing } else d }

end LibreServ.RamCache
