import LibreServ.RamCache

/-! Saves on their way to a drive. A flush claims the buffer under the lock, writes it without the lock, looks
under the lock whether it has been deleted meanwhile, renames its temporary file into place, looks once more, and
takes the lock again to settle. Deletes, new saves, failures and the loss of the drive come in between. A run is any
order of these sections at one path; what happens to each accepted buffer is kept in history variables. -/

namespace LibreServ.RamCache

open List Option Table

/-- Where a flush stands. -/
inductive FlushPhase where
  | writing
  | written
  | checked
  | installed
  | removing
  | settling (written : Written)
  deriving DecidableEq

structure Flush where
  bytes : List UInt8
  overwrite : Bool
  phase : FlushPhase
  ticket : Nat
  deriving DecidableEq

/-- The file at the path on the drive, with the buffer it came from if it came from one. -/
structure Stored where
  bytes : List UInt8
  ticket : Option Nat
  deriving DecidableEq

/-- How the drive answers a flush. `halfway` is the hard link that was made and the temporary name that could not be
removed, which `install_no_overwrite` reports as an error. -/
inductive Answer where
  | ok
  | refused
  | halfway
  deriving DecidableEq

structure Saves where
  cache : Inner
  flushes : Table Nat Flush
  dest : Option Stored
  now : Nat
  /-- History: how many buffers were accepted, and what became of them. -/
  accepted : Nat
  landed : List Nat
  replaced : List Nat
  deleted : List Nat
  /-- History: the buffers deleted while a flush had them. -/
  cutShort : List Nat

inductive SaveEvent where
  | accept (budget : CacheBudget) (save : Save)
  | claim (f : Nat)
  | next (f : Nat) (answer : Answer)
  | remove
  | fail
  | drop
  | beginClose
  | endClose
  /-- Somebody else writes the file or removes it. -/
  | outside (bytes : Option (List UInt8))
  | tick (n : Nat)

namespace Saves

/-- `RamCache::new`, with any file on the drive. -/
def start (bytes : Option (List UInt8)) (now : Nat) : Saves where
  cache := .new
  flushes := .empty
  dest := bytes.map fun b => ⟨b, none⟩
  now := now
  accepted := 0
  landed := []
  replaced := []
  deleted := []
  cutShort := []

variable (toLowercase : Files.Text → Files.Text) (key : Key) (s : Saves)

def buffer : Option DirtyFile := s.cache.dirty.get? key

def failure : Option FailedSave := s.cache.failed.get? key

/-- The buffers the map and the list of failures hold for the path. -/
def heldTickets : List Nat := ((s.buffer key).map (·.ticket)).toList ++ ((s.failure key).map (·.ticket)).toList

def onDrive : Option Nat := s.dest.bind (·.ticket)

def store (fl : Flush) : Saves :=
  { s with dest := some ⟨fl.bytes, some fl.ticket⟩, landed := fl.ticket :: s.landed }

def goTo (f : Nat) (fl : Flush) (phase : FlushPhase) : Saves :=
  { s with flushes := s.flushes.put f { fl with phase := phase } }

/-- The next section of a flush. -/
def advance (f : Nat) (fl : Flush) (answer : Answer) : Saves :=
  match fl.phase with
  | .writing => s.goTo f fl (if answer = .ok then .written else .settling .failed)
  | .written => s.goTo f fl (if isCancelled key s.cache then .settling .discarded else .checked)
  | .checked =>
    if !fl.overwrite && s.dest.isSome then s.goTo f fl (.settling .failed)
    else
      match answer with
      | .ok => (s.store fl).goTo f fl .installed
      | .refused => s.goTo f fl (.settling .failed)
      | .halfway => (if fl.overwrite then s else s.store fl).goTo f fl (.settling .failed)
  | .installed => s.goTo f fl (if isCancelled key s.cache then .removing else .settling .landed)
  | .removing =>
    { s.goTo f fl (.settling .discarded) with dest := if answer = .ok then none else s.dest }
  | .settling written => { s with cache := settle key written s.cache, flushes := s.flushes.erase f }

def step : SaveEvent → Saves
  | .accept budget save =>
    match acceptDirty toLowercase budget s.now key save s.accepted s.cache with
    | .error _ => s
    | .ok cache =>
      { s with cache := cache, accepted := s.accepted + 1, replaced := s.heldTickets key ++ s.replaced }
  | .claim f =>
    match s.flushes.get? f, RamCache.claim key s.cache with
    | none, .claimed d cache =>
      { s with cache := cache, flushes := s.flushes.put f ⟨d.bytes, d.overwrite, .writing, d.ticket⟩ }
    | _, _ => s
  | .next f answer =>
    match s.flushes.get? f with
    | some fl => s.advance key f fl answer
    | none => s
  | .remove =>
    { s with
      cache := removeDirty key s.cache
      deleted := s.heldTickets key ++ s.deleted
      cutShort :=
        if (s.buffer key).any (·.state = .flushing) then ((s.buffer key).map (·.ticket)).toList ++ s.cutShort
        else s.cutShort }
  | .fail => { s with cache := markFailed s.now key s.cache }
  | .drop => { s with cache := dropDrive s.now key.1 s.cache }
  | .beginClose => { s with cache := RamCache.beginClose key.1 s.cache }
  | .endClose => { s with cache := RamCache.endClose key.1 s.cache }
  | .outside bytes => { s with dest := bytes.map fun b => ⟨b, none⟩ }
  | .tick n => { s with now := s.now + n }

def run (events : List SaveEvent) : Saves := events.foldl (fun s e => s.step toLowercase key e) s

/-! ### What is asked of a run -/

/-- The buffer is in the map, or was installed on the drive, or was replaced by a later save, or was deleted, or is
recorded as a failed save. -/
def Accounted (t : Nat) : Prop :=
  (s.buffer key).map (·.ticket) = some t ∨ t ∈ s.landed ∨ t ∈ s.replaced ∨ t ∈ s.deleted ∨
    (s.failure key).map (·.ticket) = some t

/-- No accepted save has vanished, and none that was deleted under a flush is on the drive once no flush has it. -/
def Safe : Prop :=
  (∀ t < s.accepted, s.Accounted key t) ∧
    ∀ t ∈ s.cutShort, (∀ f fl, s.flushes.get? f = some fl → fl.ticket ≠ t) → s.onDrive ≠ some t

/-- A flush will look again before it settles. -/
def looksAgain (fl : Flush) : Prop := fl.phase = .installed ∨ fl.phase = .removing

/-- The moments at which nothing goes wrong. No save is accepted while a flush still writes a buffer that
`mark_failed` or `drop_drive` has taken away. No buffer is deleted while a flush has it that put it on the drive and
will not look again. The drive removes the file of a deleted buffer when told to, and makes no link halfway for
one. -/
def Clear : SaveEvent → Prop
  | .accept _ _ => ∀ f fl, s.flushes.get? f = some fl → (s.buffer key).isSome
  | .remove => ∀ f fl, s.flushes.get? f = some fl → s.onDrive = some fl.ticket → looksAgain fl
  | .next f answer => ∀ fl, s.flushes.get? f = some fl →
      (fl.phase = .removing → answer = .ok) ∧
      (fl.phase = .checked → answer = .halfway → isCancelled key s.cache = false)
  | _ => True

/-! ### The sections, seen at the path -/

end Saves

section

variable {key : Key} {g : Inner}

@[simp] theorem takeDirty_dirty (key : Key) (g : Inner) : (takeDirty key g).dirty.get? key = none := by
  simp [takeDirty]

@[simp] theorem takeDirty_failed (key : Key) (g : Inner) : (takeDirty key g).failed = g.failed := rfl

theorem acceptDirty_ok {toLowercase : Files.Text → Files.Text} {budget : CacheBudget} {now ticket : Nat} {save : Save}
    {g' : Inner} (h : acceptDirty toLowercase budget now key save ticket g = .ok g') :
    (∀ d, g.dirty.get? key = some d → d.state ≠ .flushing) ∧ g'.failed.get? key = none ∧
      g'.dirty = g.dirty.put key ⟨save.bytes, save.modified, .writing, save.name, save.overwrite, false, ticket⟩ := by
  unfold acceptDirty at h
  split at h
  · cases h
  split at h
  · cases h
  split at h
  · cases h
  next hflushing =>
    dsimp only at h
    split at h
    · cases h
    · cases h
      refine ⟨fun d hd hstate => hflushing ?_, ?_, rfl⟩
      · rw [hd]
        simpa using hstate
      · simp

theorem claim_claimed {d : DirtyFile} {g' : Inner} (h : claim key g = .claimed d g') :
    g.dirty.get? key = some d ∧ d.state = .writing ∧ g'.failed = g.failed ∧
      g'.dirty = g.dirty.put key { d with state := .flushing } := by
  unfold claim at h
  split at h
  · cases h
  next d' hd =>
    split at h
    · cases h
    · cases h
    · next hstate =>
        cases h
        exact ⟨hd, hstate, rfl, rfl⟩

theorem removeDirty_failed (key : Key) (g : Inner) : (removeDirty key g).failed.get? key = none := by
  unfold removeDirty
  dsimp only
  split
  · simp
  · split <;> simp

theorem removeDirty_dirty (key : Key) (g : Inner) : (removeDirty key g).dirty.get? key =
      ((g.dirty.get? key).filter (·.state = .flushing)).map fun d => { d with cancelled := true } := by
  unfold removeDirty
  dsimp only
  split
  · next hd => simp [hd]
  · next d hd =>
      split
      · next hstate => simp [hd, hstate]
      · next hstate => simp [hd, hstate]

theorem failLocked_dirty (now : Nat) (key : Key) (g : Inner) : (failLocked now key g).dirty.get? key = none := by
  unfold failLocked
  split
  · next hd => exact hd
  · split <;> simp

/-- A failure is recorded unless the buffer had been deleted. -/
theorem failLocked_failed (now : Nat) (key : Key) (g : Inner) :
    ((failLocked now key g).failed.get? key).map (·.ticket) =
      match g.dirty.get? key with
      | none => (g.failed.get? key).map (·.ticket)
      | some d => if d.cancelled then (g.failed.get? key).map (·.ticket) else some d.ticket := by
  cases hd : g.dirty.get? key with
  | none => simp only [failLocked, hd]
  | some d =>
    by_cases hcancelled : d.cancelled = true
    · simp [failLocked, hd, hcancelled]
    · simp [failLocked, hd, hcancelled]

end

/-- All saves are at one path. -/
def OnlyAt (key : Key) (g : Inner) : Prop := ∀ k d, g.dirty.get? k = some d → k = key

section

variable {key : Key} {g g' : Inner}

variable (h : OnlyAt key g)

include h

theorem OnlyAt.of_put {d : DirtyFile} (heq : g'.dirty = g.dirty.put key d) : OnlyAt key g' := by
  intro k d' hd'
  rw [heq, get?_put] at hd'
  split at hd'
  · next hk => exact hk
  · exact h k d' hd'

theorem OnlyAt.takeDirty : OnlyAt key (takeDirty key g) := by
  intro k d hd
  rw [RamCache.takeDirty, get?_erase] at hd
  split at hd
  · cases hd
  · exact h k d hd

theorem OnlyAt.removeDirty : OnlyAt key (removeDirty key g) := by
  unfold RamCache.removeDirty
  dsimp only
  split
  · exact h
  · split
    · exact h.of_put rfl
    · have herased : OnlyAt key { g with failed := g.failed.erase key } := h
      exact herased.takeDirty

theorem OnlyAt.failLocked (now : Nat) : OnlyAt key (failLocked now key g) := by
  unfold RamCache.failLocked
  split
  · exact h
  · split <;> exact h.takeDirty

theorem OnlyAt.settle (written : Written) : OnlyAt key (settle key written g) := by
  cases written with
  | landed | discarded => exact h.takeDirty
  | failed =>
    intro k d hd
    rw [RamCache.settle, get?_update, map_eq_some_iff] at hd
    obtain ⟨d', hd', -⟩ := hd
    exact h k d' hd'

theorem keys_of_onlyAt :
    g.dirty.keys = if (g.dirty.get? key).isSome then [key] else [] := by
  have hkeys : ∀ k ∈ g.dirty.keys, k = key := by
    intro k hk
    obtain ⟨d, hd⟩ := Table.mem_keys.mp hk
    exact h k d hd
  have hrep := eq_replicate_of_mem hkeys
  have hnodup : g.dirty.keys.Nodup := g.dirty.nodup
  split
  · next hsome =>
      obtain ⟨d, hd⟩ := isSome_iff_exists.mp hsome
      have hmem : key ∈ g.dirty.keys := Table.mem_keys.mpr ⟨d, hd⟩
      rw [hrep] at hnodup hmem ⊢
      have hle := nodup_replicate.mp hnodup
      have hpos := (mem_replicate.mp hmem).1
      have hone : g.dirty.keys.length = 1 := by omega
      rw [hone, replicate_one]
  · next hnone =>
      rw [eq_nil_iff_forall_not_mem]
      intro k hk
      obtain ⟨d, hd⟩ := Table.mem_keys.mp hk
      rw [hkeys k hk] at hd
      rw [hd] at hnone
      exact hnone rfl

/-- Dropping a drive with one path fails the save of that path. -/
theorem dropDrive_of_onlyAt (now : Nat) : (dropDrive now key.1 g).dirty = (failLocked now key g).dirty ∧
      (dropDrive now key.1 g).failed = (failLocked now key g).failed := by
  unfold dropDrive
  dsimp only
  rw [keys_of_onlyAt h]
  cases hd : g.dirty.get? key with
  | none => simp [failLocked, hd]
  | some d =>
    simp only [isSome_some, if_true, decide_true, filter_cons_of_pos, filter_nil, foldl_cons]
    simp only [failLocked, hd]
    split <;> exact ⟨rfl, rfl⟩

end

end LibreServ.RamCache
