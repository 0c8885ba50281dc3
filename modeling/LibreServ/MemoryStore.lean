import LibreServ.RecordPages

/-! The in-memory store of `backup/cloud/store.rs` and its listings by pages. Each call locks the store for itself, so
others may change it between two calls; the inventory's version tells a listing that they did. -/

namespace LibreServ.Records

open Files (Text)

inductive StoreError where
  | full
  | notFound
  | unavailable (message : String)
  | rejected (message : String)
  deriving DecidableEq

def nameMsg : String := "Luna used a name for a backup record that Luna Connect does not accept."

def recordTooBigMsg : String := "A backup record is larger than Luna Connect accepts (1 MB)."

def refusedMsg : String := "Luna Connect refused that request."

def scanChangedMsg : String := "The cloud backup list changed while it was being read. Try again."

def maxRecordBytes : Nat := 1024 * 1024

/-- `u64::MAX`. -/
def maxVersion : Nat := 2 ^ 64 - 1

/-- `MemoryStore` with its `MemoryInner`. -/
structure MemoryStore where
  quotaBytes : Nat
  packs : Table (List UInt8) (List UInt8)
  records : Table (Text × Text) (List UInt8)
  inventoryVersion : Nat
  /-- `check_record` lets no other key in. -/
  valid : ∀ key bytes, records.get? key = some bytes → validToken key.1 128 = true ∧ validToken key.2 128 = true
  bounded : inventoryVersion ≤ maxVersion

namespace MemoryStore

variable (s : MemoryStore)

def new : MemoryStore := ⟨0, Table.empty, Table.empty, 0, fun _ _ h => (nomatch h), Nat.zero_le _⟩

def used : Nat := (s.packs.rows.map fun r => r.2.length).sum + (s.records.rows.map fun r => r.2.length).sum

def fits (used adding : Nat) : Bool := s.quotaBytes = 0 || used + adding ≤ s.quotaBytes

/-- `saturating_add(1)`. -/
def bumped : Nat := min (s.inventoryVersion + 1) maxVersion

theorem bumped_le : s.bumped ≤ maxVersion := Nat.min_le_right _ _

def putRecord (kind name : Text) (bytes : List UInt8) : Except StoreError MemoryStore :=
  if h : validToken kind 128 = true ∧ validToken name 128 = true then
    if maxRecordBytes < bytes.length then .error (.rejected recordTooBigMsg)
    else
      let replaced := ((s.records.get? (kind, name)).map List.length).getD 0
      if s.fits (s.used - replaced) bytes.length then
        .ok { s with
          records := s.records.put (kind, name) bytes
          inventoryVersion := s.bumped
          valid := fun key found hget => by
            rw [Table.get?_put] at hget
            split at hget
            · next heq => exact heq ▸ h
            · exact s.valid key found hget
          bounded := s.bumped_le }
      else .error .full
  else .error (.rejected nameMsg)

def deleteRecord (kind name : Text) : Except StoreError MemoryStore :=
  if validToken kind 128 = true ∧ validToken name 128 = true then
    if (s.records.get? (kind, name)).isSome then
      .ok { s with
        records := s.records.erase (kind, name)
        inventoryVersion := s.bumped
        valid := fun key found hget => by
          obtain ⟨-, hget⟩ := Table.get?_erase_some.mp hget
          exact s.valid key found hget
        bounded := s.bumped_le }
    else .ok s
  else .error (.rejected nameMsg)

/-- The keys of the map, in the map's order. -/
def keys : List (Text ×ₗ Text) := (s.records.keys.map toLex).insertionSort (· ≤ ·)

def listRecordPage (kind : Text) (after : Option Text) (limit : Nat) : Except StoreError RecordPage :=
  if validateRecordPage kind after limit = false then .error (.rejected nameMsg)
  else
    let total := (s.keys.filter fun k => (ofLex k).1 = kind).length
    let start : Text ×ₗ Text := toLex (kind, after.getD [])
    let found := (s.keys.filter fun k => start ≤ k).filter fun k =>
      (ofLex k).1 = kind && after.all fun cursor => cursor < (ofLex k).2
    let names := (found.take (limit + 1)).map fun k => (ofLex k).2
    let hasMore := limit < names.length
    let names := if hasMore then names.dropLast else names
    let nextAfter := if hasMore then names.getLast? else none
    .ok ⟨names, total, nextAfter, s.inventoryVersion⟩

end MemoryStore

/-! ### What others do -/

inductive Change where
  | putRecord (kind name : Text) (bytes : List UInt8)
  | deleteRecord (kind name : Text)
  /-- `put_pack` and `delete_pack`, which records do not feel but for the quota. -/
  | setPacks (packs : Table (List UInt8) (List UInt8))

namespace MemoryStore

/-- A call that is refused changes nothing. -/
def apply (s : MemoryStore) : Change → MemoryStore
  | .putRecord kind name bytes => (s.putRecord kind name bytes).toOption.getD s
  | .deleteRecord kind name => (s.deleteRecord kind name).toOption.getD s
  | .setPacks packs => { s with packs := packs }

def applyAll (s : MemoryStore) (changes : List Change) : MemoryStore := changes.foldl apply s

/-- A record is put, or one that is there is deleted. -/
def Effective (s : MemoryStore) : Change → Prop
  | .putRecord kind name bytes => ∃ s', s.putRecord kind name bytes = .ok s'
  | .deleteRecord kind name => (s.records.get? (kind, name)).isSome
  | .setPacks _ => False

/-- One of these changes is effective when its turn comes. -/
def Changed (s : MemoryStore) (changes : List Change) : Prop :=
  ∃ before c rest, changes = before ++ c :: rest ∧ (s.applyAll before).Effective c

end MemoryStore

/-- The store, and what others do to it before each of the next calls. -/
structure World where
  store : MemoryStore
  changes : List (List Change)

namespace World

variable (w : World)

/-- After so many calls. -/
def skip (n : Nat) : World := ⟨w.store.applyAll (w.changes.take n).flatten, w.changes.drop n⟩

/-- The next call's world. -/
abbrev next : World := w.skip 1

end World

/-! ### The listings -/

inductive Stop where
  | error (e : StoreError)
  | unfinished

abbrev Listing := EStateM Stop World

/-- A call that locks the store. -/
def call {α : Type} (f : MemoryStore → Except StoreError α) : Listing α := fun w =>
  match f w.next.store with
  | .ok a => .ok a w.next
  | .error e => .error (.error e) w.next

/-- `list_record_page_versioned` and `list_record_page_prefix_versioned`, around the listing they continue. -/
def versioned (read : Listing RecordPage) (after : Option Text) (version expectedTotal : Option Nat) :
    Listing RecordPage :=
  if version.isSome ≠ expectedTotal.isSome ∨ after.isSome ∧ version = none then throw (.error (.rejected nameMsg))
  else do
    let page ← read
    if (∃ v ∈ version, v ≠ page.version) ∨ (∃ t ∈ expectedTotal, t ≠ page.total) ∨
        version.isSome ≠ expectedTotal.isSome then
      throw (.error (.unavailable changedMessage))
    else return page

def listRecordPageVersioned (kind : Text) (after : Option Text) (limit : Nat) (version expectedTotal : Option Nat) :
    Listing RecordPage :=
  versioned (call fun s => s.listRecordPage kind after limit) after version expectedTotal

/-- The variables of the scan for a prefix. -/
structure Scan where
  scanAfter : Option Text
  expectedTotal : Option Nat
  total : Nat
  names : List Text
  afterTotal : Nat
  version : Option Nat

/-- One name of a scanned page. -/
def Scan.see (start : Text) (after : Option Text) (limit : Nat) (c : Scan) (name : Text) : Scan :=
  if start.isPrefixOf name then
    if after.all fun cursor => cursor < name then
      { c with
        total := c.total + 1
        afterTotal := c.afterTotal + 1
        names := if c.names.length ≤ limit then c.names ++ [name] else c.names }
    else { c with total := c.total + 1 }
  else c

/-- The loop over the pages of the whole kind. -/
def scanPages (kind start : Text) (after : Option Text) (limit : Nat) : Nat → Scan → Listing Scan
  | 0, _ => throw .unfinished
  | fuel + 1, c => do
    let page ← listRecordPageVersioned kind c.scanAfter maxStorageRecordPageSize c.version c.expectedTotal
    if validatePageResponse kind c.scanAfter maxStorageRecordPageSize page = false then
      throw (.error (.rejected refusedMsg))
    else if ∃ t ∈ c.expectedTotal, t ≠ page.total then throw (.error (.unavailable scanChangedMsg))
    else
      let c := page.names.foldl (Scan.see start after limit)
        { c with expectedTotal := some page.total, version := some page.version }
      match page.nextAfter with
      | none => return c
      | some next => scanPages kind start after limit fuel { c with scanAfter := some next }

/-- The default one, which `MemoryStore` has. -/
def listRecordPagePrefix (fuel : Nat) (kind start : Text) (after : Option Text) (limit : Nat) : Listing RecordPage :=
  if validateRecordPagePrefix kind start after limit = false then throw (.error (.rejected nameMsg))
  else do
    let c ← scanPages kind start after limit fuel ⟨none, none, 0, [], 0, none⟩
    let hasMore := limit < c.afterTotal
    let names := if hasMore then c.names.dropLast else c.names
    let nextAfter := if hasMore then names.getLast? else none
    return ⟨names, c.total, nextAfter, c.version.getD 0⟩

def listRecordPagePrefixVersioned (fuel : Nat) (kind start : Text) (after : Option Text) (limit : Nat)
    (version expectedTotal : Option Nat) : Listing RecordPage :=
  versioned (listRecordPagePrefix fuel kind start after limit) after version expectedTotal

/-- One page, of a prefix or of the whole kind. -/
def listPage (fuel : Nat) (kind : Text) (start after : Option Text) (limit : Nat) (version expectedTotal : Option Nat) :
    Listing RecordPage :=
  match start with
  | some start => listRecordPagePrefixVersioned fuel kind start after limit version expectedTotal
  | none => listRecordPageVersioned kind after limit version expectedTotal

/-- Each page with the cursor it was asked for with. After the first one, a page is asked for with the version and the
total of the one before. -/
def listAll (scanFuel : Nat) (kind : Text) (start : Option Text) (limit : Nat) :
    Nat → Option Text → Option RecordPage → Listing (List (Option Text × RecordPage))
  | 0, _, _ => throw .unfinished
  | fuel + 1, after, last => do
    let page ← listPage scanFuel kind start after limit (last.map (·.version)) (last.map (·.total))
    match page.nextAfter with
    | none => return [(after, page)]
    | some next => do
      let pages ← listAll scanFuel kind start limit fuel (some next) (some page)
      return (after, page) :: pages

end LibreServ.Records
