import LibreServ.Ranges
import LibreServ.SectionsPool
import LibreServ.Table

/-! Resumable chunked uploads (`files/uploads.rs`, with the upload tables of `db.rs`). Clients send byte
ranges of a file in any order. The ranges received so far are kept partly in a map in memory and, once
that is flushed, in SQLite; an upload may be finished when the recorded ranges cover the file.

The model is one upload session: its row, its `upload_chunks` rows, its entry of the pending map, and
the length of its temp file. What the bytes are does not matter here. -/

namespace LibreServ.Uploads

open Sections

/-! ### SQLite integers -/

/-- `n as i64` for a `u64` value, as the statements bind it. -/
def asI64 (n : ℕ) : ℤ := if n < 2 ^ 63 then n else n - 2 ^ 64

/-- `z as u64` for an `i64` value, as the queries read it back. -/
def asU64 (z : ℤ) : ℕ := (z % 2 ^ 64).toNat

theorem asI64_of_lt {n : ℕ} (h : n < 2 ^ 63) : asI64 n = n := if_pos h

theorem asU64_natCast {n : ℕ} (h : n < 2 ^ 63) : asU64 n = n := by
  rw [asU64]
  omega

/-! ### The recorded ranges -/

/-- Record the range `[start, stop)`: a row with the same start gets the new end. -/
def upsertUploadChunk (chunks : Table ℤ ℤ) (start stop : ℕ) : Table ℤ ℤ :=
  chunks.put (asI64 start) (asI64 stop)

/-- All recorded ranges, sorted by start. -/
def listUploadChunks (chunks : Table ℤ ℤ) : List (ℕ × ℕ) :=
  (chunks.rows.insertionSort fun a b => a.1 ≤ b.1).map fun r => (asU64 r.1, asU64 r.2)

/-- The recorded ranges cover `[0, size)` with no hole. -/
def uploadFullyCovered (chunks : Table ℤ ℤ) (size : ℕ) : Bool :=
  if size = 0 then true else Ranges.sweep size 0 (listUploadChunks chunks)

/-! ### The session -/

/-- Flush upload progress to SQLite at least this often (bytes received). -/
def progressFlushBytes : ℕ := 2 * 1024 * 1024

/-- Flush upload progress to SQLite at least this often (seconds). -/
def progressFlushSecs : ℤ := 2

structure PendingProgress where
  received : ℕ
  size : ℕ
  chunks : List (ℕ × ℕ)
  lastFlushUnix : ℤ
  lastFlushedReceived : ℕ
  deriving DecidableEq

inductive UploadError where
  | notFound
  | notActive
  | db
  | io
  | sizeMismatch
  deriving DecidableEq

/-- One upload: its row (`size`, `received`, `active`), its recorded ranges, its entry of the pending
map and the length of its temp file. -/
structure Session where
  size : ℕ
  received : ℕ
  active : Bool
  chunks : Table ℤ ℤ
  pending : Option PendingProgress
  tempLen : ℕ

/-- A session as `create` leaves it. -/
def create (size : ℕ) : Session := ⟨size, 0, true, Table.empty, none, 0⟩

/-- What the outside decides at a section: the clock, whether the drive with the session's database is
mounted, and whether a disk write or an SQLite transaction fails. -/
structure Input where
  now : ℤ
  found : Bool
  ioFails : Bool
  txFails : Bool

/-- The sections of `write_chunk` and of a flush. -/
inductive Label where
  | load
  | diskWrite (start stop : ℕ)
  | note (start stop : ℕ)
  | flush
  deriving DecidableEq

/-- Move the pending progress into SQLite. The entry leaves the map before the transaction starts, so
a transaction that fails loses it. -/
def flushPending (txFails : Bool) (s : Session) : Except UploadError Unit × Session :=
  match s.pending with
  | none => (.ok (), s)
  | some p =>
    if txFails then (.error .db, { s with pending := none })
    else
      (.ok (), { s with
        pending := none
        received := p.received
        chunks := p.chunks.foldl (fun t r => upsertUploadChunk t r.1 r.2) s.chunks })

def shouldFlush (p : PendingProgress) (now : ℤ) : Bool :=
  if p.size ≤ p.received then true
  else if progressFlushBytes ≤ p.received - p.lastFlushedReceived then true
  else progressFlushSecs ≤ now - p.lastFlushUnix

/-- The progress a session reports: the unflushed value if there is one, else the row's. -/
def Session.current (s : Session) : ℕ :=
  match s.pending with
  | some p => p.received
  | none => s.received

/-- The first lock section of `write_chunk`: the size and the progress so far. -/
def load (i : Input) (s : Session) : Except UploadError (ℕ × ℕ) :=
  if !i.found then .error .notFound
  else if !s.active then .error .notActive
  else .ok (s.size, s.current)

/-- The end of a chunk of `len` bytes at `start`, if it fits in the upload. -/
def chunkEnd (start len size : ℕ) : Except UploadError ℕ :=
  if start + len < 2 ^ 64 ∧ start + len ≤ size then .ok (start + len) else .error .sizeMismatch

/-- Seek and write. The system refuses an offset that does not fit in a signed 64-bit integer. -/
def diskWrite (start stop : ℕ) (i : Input) (s : Session) : Except UploadError Unit × Session :=
  if i.ioFails || 2 ^ 63 ≤ stop then (.error .io, s)
  else (.ok (), { s with tempLen := if start < stop then max s.tempLen stop else s.tempLen })

/-- The pending-map section of `write_chunk`: the entry is made if there is none, its `received` is
set, and the range is added. Says whether to flush now. -/
def notePending (start stop size prevReceived : ℕ) (i : Input) (s : Session) : Bool × Session :=
  let entry := s.pending.getD ⟨prevReceived, size, [], i.now, prevReceived⟩
  let entry := { entry with
    received := max prevReceived stop
    size := size
    chunks := entry.chunks ++ [(start, stop)] }
  (shouldFlush entry i.now, { s with pending := some entry })

/-- The flush section: the session is looked up again, then its progress is flushed. -/
def flushSection (i : Input) (s : Session) : Except UploadError Unit × Session :=
  if !i.found then (.error .notFound, s) else flushPending i.txFails s

/-- Write one chunk of `len` bytes at `start`. -/
def writeChunk (start len : ℕ) : Prog Label Input Session UploadError ℕ := do
  let (size, prevReceived) ← Prog.tryAct .load fun i s => (load i s, s)
  let stop ← Prog.ofExcept (chunkEnd start len size)
  Prog.tryAct (.diskWrite start stop) (diskWrite start stop)
  let doFlush ← Prog.act (.note start stop) (notePending start stop size prevReceived)
  if doFlush then
    Prog.tryAct .flush flushSection
  return max prevReceived stop

/-- The flush that `complete` starts with. -/
def flushNow : Prog Label Input Session UploadError ℕ := do
  Prog.tryAct .flush flushSection
  return 0

/-- What `complete` decides after its flush: the session goes on to be installed, or it is put in the
error state. -/
def completeCheck (s : Session) : Except UploadError Unit × Session :=
  if !s.active then (.error .notActive, s)
  else if s.tempLen ≠ s.size ∨ uploadFullyCovered s.chunks s.size = false then
    (.error .sizeMismatch, { s with active := false })
  else (.ok (), s)

end LibreServ.Uploads
