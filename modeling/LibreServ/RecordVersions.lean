import LibreServ.RecordPages

/-! The version of a Luna's record inventory (`storage_inventory.go`), which `PutRecord`, `DeleteRecord`, `dropLiveRow`
and a purge raise and a paged listing checks. Each of them is a transaction of several statements, and each holds the
row of `storage_record_versions` from its lock to its end, so one at most is past that lock. What it wrote is seen by
others once it commits. -/

namespace LibreServ.Records

open List Option Table
open Files (Text)

/-- How far a listing has come. -/
inductive Seen where
  | locked
  | version (v : Nat)
  | counted (v total : Nat)
  /-- With the records and the count of changes as they were when the names were read. -/
  | named (page : RecordPage) (records : Table (Text × Text) Nat) (edits : Nat)

inductive PutStage where
  | bumped
  | objectFailed
  | objectStored
  | rowWritten
  /-- Back at the savepoint, with the version still raised. -/
  | rowFailed
  deriving DecidableEq

/-- `rows` says whether the purge found records, and raised the version. -/
inductive PurgeStage where
  | locked
  | scanned (rows : Bool)
  | objectsGone (rows : Bool)
  | rowsGone (rows : Bool)
  /-- An object or a row could not be deleted, after the first record's object was to be. -/
  | stopped (rows : Bool)
  deriving DecidableEq

/-- The transaction that holds the row. -/
inductive Held where
  | list (kind : Text) (req : PageRequest) (seen : Seen)
  | put (kind name : Text) (bytes : Nat) (stage : PutStage)
  | delete (kind name : Text)
  | purge (stage : PurgeStage)

/-- A page that was sent, with the records it was read from and the count of changes before it. -/
structure Served where
  kind : Text
  req : PageRequest
  page : RecordPage
  records : Table (Text × Text) Nat
  edits : Nat

/-- `edits` and `served` are no tables of Connect's: they count the transactions that stored or removed records, or
failed to save one and committed, and tell which pages were sent. -/
structure State where
  db : Db
  held : Option Held
  /-- Rows a `DELETE` took that has not got the lock yet. -/
  waiting : List (Text × Text)
  edits : Nat
  served : List Served

inductive Objects where
  | gone
  /-- A pack's object, before any record's. -/
  | packFailed
  | recordFailed
  deriving DecidableEq

inductive Act where
  | list (kind : Text) (q : Query)
  | readVersion
  | count
  | readNames
  | endList (committed : Bool)
  | put (kind name : Text) (bytes : Nat)
  | putObject (stored : Bool)
  | putRow (written : Bool)
  | deleteRow (kind name : Text)
  | deleteLock (kind name : Text)
  | dropDelete (kind name : Text)
  | purge
  | scan
  | deleteObjects (objects : Objects)
  | deleteRows (deleted : Bool)
  | commit (committed : Bool)
  /-- The transaction is lost: a deadlock, a client that left, a crash. -/
  | rollback
  /-- `bumpStorageRecordInventory`, after a commit that may have failed. -/
  | bump

namespace State

def release (st : State) : State := { st with held := none }

def holds (st : State) (held : Held) : State := { st with held := some held }

/-- `BumpStorageRecordVersion`, committed. -/
def bumped (st : State) : State := { st with db := { st.db with version := some (storageRecordVersion st.db + 1) } }

/-- A transaction that changed records is committed. -/
def edited (st : State) (records : Table (Text × Text) Nat) : State :=
  { st with
    db := ⟨records, some (storageRecordVersion st.db + 1)⟩
    held := none
    edits := st.edits + 1 }

/-- The end of a purge that found records, or found none. -/
def purged (st : State) (rows : Bool) (records : Table (Text × Text) Nat) : State :=
  if rows then st.edited records
  else { st with db := ⟨records, some (storageRecordVersion st.db)⟩, held := none }

def beginList (st : State) (kind : Text) (q : Query) : State :=
  if st.held.isSome ∨ validStorageName kind = false then st
  else
    match parseStorageRecordPage q with
    | none => st
    | some req => st.holds (.list kind req .locked)

def readVersion (st : State) (kind : Text) (req : PageRequest) : State :=
  let v := storageRecordVersion st.db
  if ∃ w ∈ req.version, w ≠ v then st.release else st.holds (.list kind req (.version v))

def count (st : State) (kind : Text) (req : PageRequest) (v : Nat) : State :=
  st.holds (.list kind req (.counted v (req.total.getD (rangeOf st.db.records kind req.start).length)))

def readNames (st : State) (kind : Text) (req : PageRequest) (v total : Nat) : State :=
  let found := Keyset.page (rangeOf st.db.records kind req.start) req.limit req.after
  st.holds (.list kind req (.named ⟨found.keys, total, found.next, v⟩ st.db.records st.edits))

/-- The version is read again, and the row the lock put there, if there was none, stays. -/
def endList (st : State) (kind : Text) (req : PageRequest) (page : RecordPage) (records : Table (Text × Text) Nat)
    (edits : Nat) (committed : Bool) : State :=
  if storageRecordVersion st.db ≠ page.version then st.release
  else if committed then
    { st with
      db := { st.db with version := some (storageRecordVersion st.db) }
      held := none
      served := st.served ++ [⟨kind, req, page, records, edits⟩] }
  else st.release

def commit (st : State) (committed : Bool) : Held → State
  | .put kind name bytes stage =>
    match stage with
    | .objectFailed | .rowFailed => if committed then st.edited st.db.records else st.release
    | .rowWritten => if committed then st.edited (st.db.records.put (kind, name) bytes) else st.release
    | _ => st
  | .delete kind name => if committed then st.edited (st.db.records.erase (kind, name)) else st.release
  | .purge stage =>
    match stage with
    | .rowsGone rows => if committed then st.purged rows .empty else st.release
    | .stopped rows => if committed then st.purged rows st.db.records else st.release
    | _ => st
  | .list _ _ _ => st

def step (st : State) (a : Act) : State :=
  match a, st.held with
  | .list kind q, _ => st.beginList kind q
  | .readVersion, some (.list kind req .locked) => st.readVersion kind req
  | .count, some (.list kind req (.version v)) => st.count kind req v
  | .readNames, some (.list kind req (.counted v total)) => st.readNames kind req v total
  | .endList committed, some (.list kind req (.named page records edits)) =>
    st.endList kind req page records edits committed
  | .put kind name bytes, none =>
    if validStorageName kind && validStorageName name then st.holds (.put kind name bytes .bumped) else st
  | .putObject stored, some (.put kind name bytes .bumped) =>
    st.holds (.put kind name bytes (if stored then .objectStored else .objectFailed))
  | .putRow written, some (.put kind name bytes .objectStored) =>
    st.holds (.put kind name bytes (if written then .rowWritten else .rowFailed))
  | .deleteRow kind name, _ =>
    -- a row that is not there is nothing to delete
    if st.db.records.get? (kind, name) = none then st else { st with waiting := st.waiting ++ [(kind, name)] }
  | .deleteLock kind name, none =>
    if (kind, name) ∈ st.waiting then
      { st with held := some (.delete kind name), waiting := st.waiting.erase (kind, name) }
    else st
  | .dropDelete kind name, _ => { st with waiting := st.waiting.erase (kind, name) }
  | .purge, none => st.holds (.purge .locked)
  | .scan, some (.purge .locked) => st.holds (.purge (.scanned (st.db.records.rows ≠ [])))
  | .deleteObjects objects, some (.purge (.scanned rows)) =>
    match objects with
    | .gone => st.holds (.purge (.objectsGone rows))
    | .packFailed => st.release
    | .recordFailed => st.holds (.purge (.stopped rows))
  | .deleteRows deleted, some (.purge (.objectsGone rows)) =>
    st.holds (.purge (if deleted then .rowsGone rows else .stopped rows))
  | .commit committed, some held => st.commit committed held
  | .rollback, _ => st.release
  | .bump, none => st.bumped
  | _, _ => st

def start (db : Db) : State := ⟨db, none, [], 0, []⟩

def run (st : State) (acts : List Act) : State := acts.foldl step st

/-! ### What stays true -/

/-- What the holder of the row has read is still so. -/
def HeldOk (st : State) : Prop :=
  match st.held with
  | some (.list _ req (.version v)) => v = storageRecordVersion st.db ∧ ∀ w ∈ req.version, w = v
  | some (.list kind req (.counted v total)) =>
    (v = storageRecordVersion st.db ∧ ∀ w ∈ req.version, w = v) ∧
      total = req.total.getD (rangeOf st.db.records kind req.start).length
  | some (.list kind req (.named page records edits)) =>
    records = st.db.records ∧ edits = st.edits ∧ page = pageOf st.db.records (storageRecordVersion st.db) kind req ∧
      ∀ w ∈ req.version, w = storageRecordVersion st.db
  | some (.purge (.scanned rows)) => rows = false → st.db.records.rows = []
  | some (.purge (.objectsGone rows)) => rows = false → st.db.records.rows = []
  | some (.purge (.rowsGone rows)) => rows = false → st.db.records.rows = []
  | _ => True

/-- A page that was sent: since then, the version went up at least as often as records changed. -/
structure Past (st : State) (s : Served) : Prop where
  page : s.page = pageOf s.records s.page.version s.kind s.req
  version : ∀ w ∈ s.req.version, w = s.page.version
  edits : s.edits ≤ st.edits
  bumps : s.page.version + (st.edits - s.edits) ≤ storageRecordVersion st.db
  records : s.edits = st.edits → s.records = st.db.records

structure Kept (st : State) : Prop where
  held : st.HeldOk
  past : ∀ s ∈ st.served, st.Past s
  ordered : ∀ (i j : Nat) (p q : Served), i < j → st.served[i]? = some p → st.served[j]? = some q →
    q.page.version = p.page.version → q.edits = p.edits ∧ q.records = p.records

theorem kept_start (db : Db) : (start db).Kept where
  held := trivial
  past _ h := by cases h
  ordered _ _ _ _ _ h := by simp [start] at h

variable {st st' : State}

section

variable (h : st.Kept)

include h

/-- Where only the holder or the waiting changed. -/
theorem Kept.of_held (hheld : st'.HeldOk) (hdb : st'.db = st.db) (hedits : st'.edits = st.edits)
    (hserved : st'.served = st.served) : st'.Kept where
  held := hheld
  past s hs := by
    rw [hserved] at hs
    obtain ⟨hpage, hversion, hle, hbumps, hrecords⟩ := h.past s hs
    refine ⟨hpage, hversion, hedits ▸ hle, ?_, ?_⟩
    · rw [hedits, hdb]
      exact hbumps
    · rw [hedits, hdb]
      exact hrecords
  ordered := by
    rw [hserved]
    exact h.ordered

theorem Kept.release : st.release.Kept := h.of_held trivial rfl rfl rfl

/-- Where records change, the version goes up. -/
theorem Kept.edited (records : Table (Text × Text) Nat) : (st.edited records).Kept where
  held := trivial
  past s hs := by
    obtain ⟨hpage, hversion, hle, hbumps, _⟩ := h.past s hs
    refine ⟨hpage, hversion, Nat.le_succ_of_le hle, ?_, ?_⟩
    · simp only [State.edited, storageRecordVersion, getD_some] at hbumps ⊢
      omega
    · intro heq
      simp only [State.edited] at heq
      omega
  ordered := h.ordered

theorem Kept.bumped (hfree : st.held = none) : st.bumped.Kept where
  held := by
    simp only [HeldOk, State.bumped, hfree]
  past s hs := by
    obtain ⟨hpage, hversion, hle, hbumps, hrecords⟩ := h.past s hs
    refine ⟨hpage, hversion, hle, ?_, hrecords⟩
    simp only [State.bumped, storageRecordVersion, getD_some] at hbumps ⊢
    omega
  ordered := h.ordered

/-- The lock's own row changes no version. -/
theorem Kept.settled (records : Table (Text × Text) Nat) (hrecords : records = st.db.records) :
    State.Kept { st with db := ⟨records, some (storageRecordVersion st.db)⟩, held := none } where
  held := trivial
  past s hs := by
    obtain ⟨hpage, hversion, hle, hbumps, hsame⟩ := h.past s hs
    refine ⟨hpage, hversion, hle, hbumps, ?_⟩
    rw [hrecords]
    exact hsame
  ordered := h.ordered

theorem Kept.purged {rows : Bool} {records : Table (Text × Text) Nat}
    (hrecords : rows = false → records = st.db.records) : (st.purged rows records).Kept := by
  cases rows with
  | true => exact h.edited records
  | false => exact h.settled records (hrecords rfl)

end

/-- A new page has the version of an older one only if nothing changed in between. -/
theorem Past.same {s q : Served} (hs : st.Past s) (hpage : q.page.version = storageRecordVersion st.db)
    (hedits : q.edits = st.edits) (hrecords : q.records = st.db.records) (hversion : q.page.version = s.page.version) :
    q.edits = s.edits ∧ q.records = s.records := by
  have hbumps := hs.bumps
  have hle := hs.edits
  have heq : s.edits = st.edits := by omega
  exact ⟨hedits.trans heq.symm, hrecords.trans (hs.records heq).symm⟩

variable (h : st.Kept)

include h

theorem Kept.serve {q : Served} (hpage : q.page = pageOf st.db.records (storageRecordVersion st.db) q.kind q.req)
    (hasked : ∀ w ∈ q.req.version, w = storageRecordVersion st.db) (hedits : q.edits = st.edits)
    (hrecords : q.records = st.db.records) :
    State.Kept { st with
      db := { st.db with version := some (storageRecordVersion st.db) }
      held := none
      served := st.served ++ [q] } := by
  have hsettled := h.settled st.db.records rfl
  have hversion : q.page.version = storageRecordVersion st.db := by rw [hpage]; rfl
  refine ⟨trivial, ?_, ?_⟩
  · intro s hs
    obtain hold | hnew := mem_append.mp hs
    · obtain ⟨hpage', hversion', hle, hbumps, hsame⟩ := hsettled.past s hold
      exact ⟨hpage', hversion', hle, hbumps, hsame⟩
    · obtain rfl := mem_singleton.mp hnew
      refine ⟨?_, fun w hw => (hasked w hw).trans hversion.symm, hedits.le, ?_, fun _ => hrecords⟩
      · rw [hrecords, hversion]
        exact hpage
      · simp [hversion, hedits, storageRecordVersion]
  · intro i j p r hij hi hj heq
    have hlast : ∀ {k : Nat} {s : Served}, (st.served ++ [q])[k]? = some s →
        st.served[k]? = some s ∨ k = st.served.length ∧ s = q := by
      intro k s hk
      obtain hlt | hge := Nat.lt_or_ge k st.served.length
      · rw [getElem?_append_left hlt] at hk
        exact Or.inl hk
      · rw [getElem?_append_right hge, getElem?_singleton] at hk
        split at hk
        · exact Or.inr ⟨by omega, (Option.some.inj hk).symm⟩
        · cases hk
    obtain hp | ⟨rfl, _⟩ := hlast hi
    · obtain hr | ⟨_, rfl⟩ := hlast hj
      · exact h.ordered i j p r hij hp hr heq
      · exact (h.past p (mem_of_getElem? hp)).same hversion hedits hrecords heq
    · obtain hr | ⟨rfl, _⟩ := hlast hj
      · have hlt := (List.getElem?_eq_some_iff.mp hr).1
        omega
      · omega

theorem Kept.beginList (kind : Text) (q : Query) : (st.beginList kind q).Kept := by
  rw [State.beginList]
  split
  · exact h
  · split
    · exact h
    · exact h.of_held trivial rfl rfl rfl

theorem Kept.readVersion (kind : Text) (req : PageRequest) : (st.readVersion kind req).Kept := by
  simp only [State.readVersion]
  split
  · exact h.release
  · rename_i hsame
    refine h.of_held ⟨rfl, ?_⟩ rfl rfl rfl
    intro w hw
    by_contra hne
    exact hsame ⟨w, hw, hne⟩

theorem Kept.endList {kind : Text} {req : PageRequest} {page : RecordPage}
    {records : Table (Text × Text) Nat} {edits : Nat} (hrecords : records = st.db.records) (hedits : edits = st.edits)
    (hpage : page = pageOf st.db.records (storageRecordVersion st.db) kind req)
    (hasked : ∀ w ∈ req.version, w = storageRecordVersion st.db) (committed : Bool) :
    (st.endList kind req page records edits committed).Kept := by
  rw [State.endList]
  split
  · exact h.release
  · split
    · exact h.serve hpage hasked hedits hrecords
    · exact h.release

theorem Kept.commit {held : Held} (hheld : st.held = some held) (committed : Bool) :
    (st.commit committed held).Kept := by
  have hok := h.held
  cases held with
  | list kind req seen => exact h
  | put kind name bytes stage =>
    cases stage with
    | bumped | objectStored => exact h
    | objectFailed | rowFailed | rowWritten =>
      cases committed with
      | true => exact h.edited _
      | false => exact h.release
  | delete kind name =>
    cases committed with
    | true => exact h.edited _
    | false => exact h.release
  | purge stage =>
    cases stage with
    | locked | scanned rows | objectsGone rows => exact h
    | rowsGone rows =>
      simp only [HeldOk, hheld] at hok
      cases committed with
      | true => exact h.purged fun hrows => eq_of_rows (hok hrows).symm
      | false => exact h.release
    | stopped rows =>
      cases committed with
      | true => exact h.purged fun _ => rfl
      | false => exact h.release

/-- Every statement of every transaction keeps it. -/
theorem Kept.step (a : Act) : (st.step a).Kept := by
  have hok := h.held
  unfold State.step
  split
  · exact h.beginList _ _
  · exact h.readVersion _ _
  · rename_i kind req v hheld
    simp only [HeldOk, hheld] at hok
    exact h.of_held ⟨hok, rfl⟩ rfl rfl rfl
  · rename_i kind req v total hheld
    simp only [HeldOk, hheld] at hok
    obtain ⟨⟨rfl, hasked⟩, rfl⟩ := hok
    exact h.of_held ⟨rfl, rfl, rfl, hasked⟩ rfl rfl rfl
  · rename_i committed kind req page records edits hheld
    simp only [HeldOk, hheld] at hok
    obtain ⟨hrecords, hedits, hpage, hasked⟩ := hok
    exact h.endList hrecords hedits hpage hasked committed
  · split
    · exact h.of_held trivial rfl rfl rfl
    · exact h
  · exact h.of_held trivial rfl rfl rfl
  · exact h.of_held trivial rfl rfl rfl
  · split
    · exact h
    · exact h.of_held hok rfl rfl rfl
  · split
    · exact h.of_held trivial rfl rfl rfl
    · exact h
  · exact h.of_held hok rfl rfl rfl
  · exact h.of_held trivial rfl rfl rfl
  · refine h.of_held ?_ rfl rfl rfl
    intro hrows
    have hnil : st.db.records.rows = [] := by simpa using hrows
    exact hnil
  · rename_i rows hheld
    simp only [HeldOk, hheld] at hok
    split
    · exact h.of_held hok rfl rfl rfl
    · exact h.release
    · exact h.of_held trivial rfl rfl rfl
  · rename_i deleted rows hheld
    simp only [HeldOk, hheld] at hok
    cases deleted with
    | true => exact h.of_held hok rfl rfl rfl
    | false => exact h.of_held trivial rfl rfl rfl
  · rename_i committed held hheld
    exact h.commit hheld committed
  · exact h.release
  · rename_i hfree
    exact h.bumped hfree
  · exact h

theorem Kept.run (acts : List Act) : (st.run acts).Kept := by
  induction acts generalizing st with
  | nil => exact h
  | cons a acts ih => exact ih (h.step a)

end State

/-- The paged listing is exact, and it is repeatable. Where nothing changes, the client that follows the cursors with
the first page's version and total ends, and has the names of the kind with the prefix, in order and each once, and the
total is their number. Whatever transactions come between, a page asked for with an older page's version is sent only
if since that page no record was stored or removed: it is read from the same records. -/
theorem listing_exact_and_repeatable : (∀ (db : Db) (kind : Text) (start : Option Text) (limit : Nat),
      (∀ k n bytes, db.records.get? (k, n) = some bytes → validStorageName n = true) →
      storageRecordVersion db < 2 ^ 63 ∧ db.records.rows.length < 2 ^ 63 → validStorageName kind = true →
      (parseStorageRecordPage (pageQuery start none limit none none)).isSome = true →
      ∃ names : List Text, names.Pairwise (· < ·) ∧
        (∀ name, name ∈ names ↔ (∃ bytes, db.records.get? (kind, name) = some bytes) ∧ ∀ s ∈ start, s <+: name) ∧
        ∀ fuel, names.length < fuel →
          followPages (listRecords db) kind start limit fuel none none = some (names, names.length)) ∧
    ∀ (db : Db) (acts : List Act) (i j : Nat) (p q : Served), i < j →
      ((State.start db).run acts).served[i]? = some p → ((State.start db).run acts).served[j]? = some q →
      q.req.version = some p.page.version →
      q.edits = p.edits ∧ q.records = p.records ∧ q.page = pageOf p.records p.page.version q.kind q.req := by
  constructor
  · intro db kind start limit hnames hfits hkind haccepted
    exact followPages_exact (asks_of_accepted hnames hfits hkind haccepted)
  · intro db acts i j p q hij hp hq hasked
    have hkept := (State.kept_start db).run acts
    have hq' := hkept.past q (mem_of_getElem? hq)
    have hversion : q.page.version = p.page.version := (hq'.version _ hasked).symm
    obtain ⟨hedits, hrecords⟩ := hkept.ordered i j p q hij hp hq hversion
    refine ⟨hedits, hrecords, ?_⟩
    rw [← hrecords, ← hversion]
    exact hq'.page

/-! ### Two pages of two names -/

namespace TwoNames

def kind : Text := "keys".toList

def db : Db := ⟨(Table.empty.put (kind, ['b']) 7).put (kind, ['a']) 5, none⟩

/-- All statements of one listing. -/
def listing (q : Query) : List Act := [.list kind q, .readVersion, .count, .readNames, .endList true]

def acts : List Act :=
  listing (pageQuery none none 1 none none) ++ listing (pageQuery none (some ['a']) 1 (some 0) (some 2))

def served : List Served := ((State.start db).run acts).served

theorem length_served : served.length = 2 := by decide +kernel

def firstPage : Served := served.get ⟨0, by rw [length_served]; decide⟩

def secondPage : Served := served.get ⟨1, by rw [length_served]; decide⟩

theorem names_valid (k n : Text) (bytes : Nat) (h : db.records.get? (k, n) = some bytes) :
    validStorageName n = true := by
  have hall : ∀ r ∈ db.records.rows, validStorageName r.1.2 = true := by decide
  exact hall _ (mem_rows.mpr h)

end TwoNames

open TwoNames in
theorem listing_exact_and_repeatable_two : (∃ names : List Text, names.Pairwise (· < ·) ∧
      (∀ name, name ∈ names ↔ (∃ bytes, db.records.get? (kind, name) = some bytes) ∧ ∀ s ∈ none, s <+: name) ∧
      ∀ fuel, names.length < fuel →
        followPages (listRecords db) kind none 1 fuel none none = some (names, names.length)) ∧
    secondPage.edits = firstPage.edits ∧ secondPage.records = firstPage.records ∧
      secondPage.page = pageOf firstPage.records firstPage.page.version secondPage.kind secondPage.req :=
  ⟨listing_exact_and_repeatable.1 db kind none 1 names_valid (by decide) (by decide) (by decide +kernel),
    listing_exact_and_repeatable.2 db acts 0 1 firstPage secondPage (by decide)
      (getElem?_eq_getElem (by rw [← served]; decide))
      (getElem?_eq_getElem (by rw [← served]; decide)) (by decide +kernel)⟩

end LibreServ.Records
