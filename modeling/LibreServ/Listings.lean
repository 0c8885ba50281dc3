import LibreServ.RamCache

/-! Listing a folder while Luna writes to its drive: `list_dir_unstamped` of `files/mod.rs`, with the drive's
index of listings (`files/index.rs`) behind the listings in memory. A listing is read in one moment and put into
the cache in a later one, and a write comes in two moments too: it changes the folder, then it is noted. Any
number of listings and writes go on at once, and a run is any order of their moments. -/

namespace LibreServ.RamCache

open List Option Table

variable {g g' : Inner} {key : Key} {read : Reading}

/-- A folder on a drive. Its stamp is whatever the file system gives it: FAT counts in steps of two seconds, so a
change may leave it as it was. `version` is a history variable, the number of changes so far. -/
structure Folder where
  entries : List FileEntry
  stamp : Int
  version : Nat

structure IndexRow where
  stamp : Int
  read : Reading

/-- Where a run of `list_dir_unstamped` stands. -/
inductive Phase where
  | hot
  | stat
  | warm (mtime : Int)
  | index (mtime : Int)
  | disk (mtime : Int)
  | save (mtime : Int) (read : Reading)
  | put (mtime : Int) (read : Reading)

structure Lister where
  key : Key
  phase : Phase

/-- A write of Luna's: the folders it has changed, each with the number of that change. -/
structure Writer where
  drive : String
  changed : List (Rel × Nat)

structure System where
  now : Nat
  folders : Key → Folder
  gens : WriteGens
  cache : Inner
  index : Table Key IndexRow
  listers : Table Nat Lister
  writers : Table Nat Writer
  /-- History: the last change of each folder that a write of Luna's made and noted. -/
  noted : Key → Nat

namespace System

/-- Luna has just started: whatever is on the drives and in their indexes, nothing is in memory. -/
def start (folders : Key → Folder) (index : Table Key IndexRow) (now : Nat) : System where
  now := now
  folders := folders
  gens := .empty
  cache := .new
  index := index
  listers := .empty
  writers := .empty
  noted := fun _ => 0

end System

/-! ### Everything else that touches the cache -/

inductive CacheOp where
  | invalidate (key : Key)
  | invalidateTree (drive : String) (rel : Rel)
  | evict
  | accept (budget : CacheBudget) (key : Key) (save : Save) (ticket : Nat)
  | remove (key : Key)
  | fail (key : Key)
  | drop (drive : String)
  | settle (key : Key) (written : Written)

section

variable (toLowercase : Files.Text → Files.Text)

def CacheOp.run (now : Nat) (g : Inner) : CacheOp → Inner
  | .invalidate key => invalidateListing key g
  | .invalidateTree drive rel => invalidateListingTree drive rel g
  | .evict => evictOneListing g
  | .accept budget key save ticket =>
    match acceptDirty toLowercase budget now key save ticket g with
    | .ok g' => g'
    | .error _ => g
  | .remove key => removeDirty key g
  | .fail key => markFailed now key g
  | .drop drive => dropDrive now drive g
  | .settle key written => RamCache.settle key written g

/-! ### The moments -/

inductive Event where
  /-- A listing starts, or gives up. -/
  | list (l : Nat) (key : Key)
  | quit (l : Nat)
  /-- A listing does the next thing. `saved` says whether the index took the entries: nobody looks. -/
  | next (l : Nat) (saved : Bool)
  | write (w : Nat) (drive : String)
  | change (w : Nat) (rel : Rel) (entries : List FileEntry) (stamp : Int)
  | note (w : Nat)
  /-- `forget_dir` and `forget_dir_tree`. -/
  | forget (key : Key)
  /-- Somebody else changes a folder: a computer the drive was plugged into, or the file system. -/
  | outside (key : Key) (entries : List FileEntry) (stamp : Int)
  | cache (op : CacheOp)
  | tick (n : Nat)

namespace System

variable (s : System)

def changeFolder (key : Key) (entries : List FileEntry) (stamp : Int) : System :=
  { s with folders := Function.update s.folders key ⟨entries, stamp, (s.folders key).version + 1⟩ }

def readDir (key : Key) : Reading := ⟨(s.folders key).entries, (s.folders key).version⟩

def freshEntries (key : Key) (mtime : Int) : Option Reading :=
  match s.index.get? key with
  | some row => if row.stamp = mtime then some row.read else none
  | none => none

/-- A listing asks the cache; an answer ends it. -/
def ask (l : Nat) (key : Key) (mtime : Option Int) (miss : Phase) : System :=
  let (hit, cache) := getListing s.gens s.now key mtime s.cache
  match hit with
  | some _ => { s with cache := cache, listers := s.listers.erase l }
  | none => { s with cache := cache, listers := s.listers.put l ⟨key, miss⟩ }

def advance (l : Nat) (lister : Lister) (saved : Bool) : System :=
  let key := lister.key
  let goOn (phase : Phase) : System := { s with listers := s.listers.put l ⟨key, phase⟩ }
  match lister.phase with
  | .hot => s.ask l key none .stat
  | .stat => goOn (.warm (s.folders key).stamp)
  | .warm mtime => s.ask l key (some mtime) (.index mtime)
  | .index mtime =>
    match s.freshEntries key mtime with
    | some read => goOn (.put mtime read)
    | none => goOn (.disk mtime)
  | .disk mtime => goOn (.save mtime (s.readDir key))
  | .save mtime read =>
    { goOn (.put mtime read) with
      index := if saved then s.index.put key ⟨mtime, read⟩ else s.index }
  | .put mtime read =>
    { s with
      cache := putListing s.gens s.now key mtime read s.cache
      listers := s.listers.erase l }

/-- The changes of a write count as noted. -/
def noteChanges (w : Writer) (key : Key) : Nat :=
  if key.1 = w.drive then ((w.changed.filter (·.1 = key.2)).map Prod.snd).foldl max (s.noted key)
  else s.noted key

def step : Event → System
  | .list l key => { s with listers := s.listers.put l ⟨key, .hot⟩ }
  | .quit l => { s with listers := s.listers.erase l }
  | .next l saved =>
    match s.listers.get? l with
    | some lister => s.advance l lister saved
    | none => s
  | .write w drive => { s with writers := s.writers.put w ⟨drive, []⟩ }
  | .change w rel entries stamp =>
    match s.writers.get? w with
    | some writer =>
      let key : Key := (writer.drive, rel)
      { s.changeFolder key entries stamp with
        writers := s.writers.put w
          { writer with changed := (rel, (s.folders key).version + 1) :: writer.changed } }
    | none => s
  | .note w =>
    match s.writers.get? w with
    | some writer => { s with gens := noteDriveWrite s.gens writer.drive, noted := s.noteChanges writer }
    | none => s
  | .forget key => { s with index := s.index.erase key }
  | .outside key entries stamp => s.changeFolder key entries stamp
  | .cache op => { s with cache := op.run toLowercase s.now s.cache }
  | .tick n => { s with now := s.now + n }

def run (events : List Event) : System := events.foldl (fun s e => s.step toLowercase e) s

/-- Whatever `get_listing` yields now was read after every change of that folder that has been noted. -/
def Fresh : Prop :=
  ∀ key mtime read, (getListing s.gens s.now key mtime s.cache).1 = some read → s.noted key ≤ read.seen

/-- A listing about to put what it read: no write that changed the folder since the read has been noted by now. -/
def Timely : Event → Prop
  | .next l _ => ∀ key mtime read, s.listers.get? l = some ⟨key, .put mtime read⟩ → s.noted key ≤ read.seen
  | _ => True

end System

/-! ### What each operation leaves of a listing -/

/-- Every listing of `g'` was one of `g`, read and put no later. -/
def Narrows (g g' : Inner) : Prop :=
  ∀ key l', g'.listings.get? key = some l' →
    ∃ l, g.listings.get? key = some l ∧ l'.writeGen = l.writeGen ∧ l'.read.seen = l.read.seen

theorem Narrows.of_eq (h : g'.listings = g.listings) : Narrows g g' := by
  intro key l' hl'
  rw [h] at hl'
  exact ⟨l', hl', rfl, rfl⟩

theorem narrows_keep (p : Key → ListingEntry → Bool) (h : g'.listings = g.listings.keep p) :
    Narrows g g' := by
  intro key l' hl'
  rw [h, Table.get?_keep, filter_eq_some_iff] at hl'
  exact ⟨l', hl'.1, rfl, rfl⟩

theorem narrows_erase (key : Key) (h : g'.listings = g.listings.erase key) : Narrows g g' :=
  narrows_keep _ h

/-- Entries may be repainted, as long as nobody claims to have read them anew. -/
theorem narrows_changeParent (key : Key) (f : ListingEntry → ListingEntry)
    (h : g'.listings = g.listings.update (changeParent key f))
    (hf : ∀ l, (f l).writeGen = l.writeGen ∧ (f l).read.seen = l.read.seen) : Narrows g g' := by
  intro k l' hl'
  rw [h, get?_update, map_eq_some_iff] at hl'
  obtain ⟨l, hl, rfl⟩ := hl'
  refine ⟨l, hl, ?_⟩
  unfold changeParent
  split
  · exact hf l
  · exact ⟨rfl, rfl⟩

theorem narrows_evictOneListing (g : Inner) : Narrows g (evictOneListing g) := by
  unfold evictOneListing
  split
  · exact .of_eq rfl
  · exact narrows_erase _ rfl

@[simp] theorem failLocked_listings (now : Nat) (key : Key) (g : Inner) :
    (failLocked now key g).listings = g.listings := by
  unfold failLocked
  split
  · rfl
  · split <;> rfl

theorem removeDirty_listings (key : Key) (g : Inner) : (removeDirty key g).listings = g.listings := by
  unfold removeDirty
  dsimp only
  split
  · rfl
  · split <;> rfl

theorem foldl_failLocked_listings (now : Nat) (keys : List Key) (g : Inner) :
    (keys.foldl (fun g k => failLocked now k g) g).listings = g.listings := by
  induction keys generalizing g with
  | nil => rfl
  | cons k keys ih => rw [foldl_cons, ih, failLocked_listings]

theorem narrows_acceptDirty {budget : CacheBudget} {now ticket : Nat} {save : Save}
    (h : acceptDirty toLowercase budget now key save ticket g = .ok g') : Narrows g g' := by
  unfold acceptDirty at h
  split at h
  · cases h
  split at h
  · cases h
  split at h
  · cases h
  dsimp only at h
  split at h
  · cases h
  · cases h
    exact narrows_changeParent key _ rfl fun _ => ⟨rfl, rfl⟩

theorem narrows_settle (key : Key) (written : Written) (g : Inner) : Narrows g (settle key written g) := by
  cases written with
  | landed => exact narrows_changeParent key _ rfl fun _ => ⟨rfl, rfl⟩
  | discarded | failed => exact .of_eq rfl

theorem narrows_cacheOp (now : Nat) (op : CacheOp) (g : Inner) : Narrows g (op.run toLowercase now g) := by
  cases op with
  | invalidate key => exact narrows_erase _ rfl
  | invalidateTree drive rel => exact narrows_keep (fun k _ => outsideTree drive rel k) rfl
  | evict => exact narrows_evictOneListing g
  | accept budget key save ticket =>
    rw [CacheOp.run]
    split
    · next h => exact narrows_acceptDirty toLowercase h
    · exact .of_eq rfl
  | remove key => exact .of_eq (removeDirty_listings key g)
  | fail key =>
    apply narrows_erase (key.1, parentRel key.2)
    simp [CacheOp.run, markFailed]
  | drop drive =>
    apply narrows_keep fun k _ => k.1 ≠ drive
    rw [CacheOp.run, dropDrive, foldl_failLocked_listings]
  | settle key written => exact narrows_settle key written g

theorem narrows_getListing (gens : WriteGens) (now : Nat) (key : Key) (mtime : Option Int) (g : Inner) :
    Narrows g (getListing gens now key mtime g).2 := by
  unfold getListing
  split
  · exact .of_eq rfl
  · split
    · exact narrows_erase _ rfl
    · split <;> exact .of_eq rfl

/-- A put listing is the new one, or it was there before. -/
theorem get?_putListing {gens : WriteGens} {now : Nat} {k : Key} {mtime : Int}
    {l' : ListingEntry} (h : (putListing gens now key mtime read g).listings.get? k = some l') :
    k = key ∧ l' = ⟨read, mtime, now, driveWriteGen gens key.1⟩ ∨ g.listings.get? k = some l' := by
  unfold putListing at h
  rcases get?_put_some.mp h with ⟨hk, rfl⟩ | ⟨-, h⟩
  · exact .inl ⟨hk, rfl⟩
  right
  split at h
  · revert h
    unfold evictOneListing
    split
    · exact id
    · intro h
      exact (get?_erase_some.mp h).2
  · exact h

theorem getListing_eq_some {gens : WriteGens} {now : Nat} {mtime : Option Int}
    (h : (getListing gens now key mtime g).1 = some read) :
    ∃ l, g.listings.get? key = some l ∧ l.writeGen = driveWriteGen gens key.1 ∧ l.read = read := by
  unfold getListing at h
  split at h
  · cases h
  next l hl =>
    split at h
    · cases h
    · next hgen =>
        split at h
        · cases h
          exact ⟨l, hl, not_not.mp hgen, rfl⟩
        · cases h

/-- What has just been put is trusted. -/
theorem getListing_putListing (gens : WriteGens) (now : Nat) (key : Key) (mtime : Int) (read : Reading) (g : Inner)
    (ask : Option Int) : (getListing gens now key ask (putListing gens now key mtime read g)).1 = some read := by
  simp [getListing, putListing]

/-! ### Runs -/

namespace System

variable {s : System}

/-- The counts a listing is stamped with never run ahead, and one stamped with today's count has seen every
change that was noted. -/
def Stamped (s : System) : Prop :=
  ∀ key l, s.cache.listings.get? key = some l →
    l.writeGen ≤ driveWriteGen s.gens key.1 ∧ (l.writeGen = driveWriteGen s.gens key.1 → s.noted key ≤ l.read.seen)

theorem stamped_start (folders : Key → Folder) (index : Table Key IndexRow) (now : Nat) :
    Stamped (start folders index now) := by
  intro key l hl
  cases hl

section

variable (h : Stamped s)

include h

theorem Stamped.fresh : Fresh s := by
  intro key mtime read hget
  obtain ⟨l, hl, hgen, rfl⟩ := getListing_eq_some hget
  exact (h key l hl).2 hgen

theorem Stamped.narrow {s' : System} (hcache : Narrows s.cache s'.cache) (hgens : s'.gens = s.gens)
    (hnoted : s'.noted = s.noted) : Stamped s' := by
  intro key l' hl'
  obtain ⟨l, hl, hgen, hseen⟩ := hcache key l' hl'
  rw [hgens, hnoted, hgen, hseen]
  exact h key l hl

theorem Stamped.note (w : Writer) :
    Stamped { s with gens := noteDriveWrite s.gens w.drive, noted := s.noteChanges w } := by
  intro key l hl
  obtain ⟨hle, hseen⟩ := h key l hl
  dsimp only
  rw [driveWriteGen_noteDriveWrite]
  by_cases hd : key.1 = w.drive
  · rw [if_pos hd, ← hd]
    constructor
    · omega
    · intro heq
      omega
  · rw [if_neg hd]
    refine ⟨hle, fun heq => ?_⟩
    rw [noteChanges, if_neg hd]
    exact hseen heq

theorem Stamped.put (l : Nat) {mtime : Int} (htimely : s.noted key ≤ read.seen) :
    Stamped { s with
      cache := putListing s.gens s.now key mtime read s.cache
      listers := s.listers.erase l } := by
  intro k l' hl'
  rcases get?_putListing hl' with ⟨rfl, rfl⟩ | hold
  · exact ⟨le_refl _, fun _ => htimely⟩
  · exact h k l' hold

theorem Stamped.ask (l : Nat) (key : Key) (mtime : Option Int) (miss : Phase) :
    Stamped (s.ask l key mtime miss) := by
  have hget := narrows_getListing s.gens s.now key mtime s.cache
  unfold System.ask
  dsimp only
  split <;> exact h.narrow hget rfl rfl

theorem Stamped.advance {l : Nat} {lister : Lister} (saved : Bool)
    (hl : s.listers.get? l = some lister) (htimely : s.Timely (.next l saved)) :
    Stamped (s.advance l lister saved) := by
  obtain ⟨key, phase⟩ := lister
  cases phase with
  | hot => exact h.ask l key none .stat
  | warm mtime => exact h.ask l key (some mtime) (.index mtime)
  | put mtime read => exact h.put l (htimely key mtime read hl)
  | index mtime =>
    unfold System.advance
    dsimp only
    split <;> exact h.narrow (.of_eq rfl) rfl rfl
  | stat | disk mtime | save mtime read => exact h.narrow (.of_eq rfl) rfl rfl

theorem Stamped.step {e : Event} (htimely : s.Timely e) : Stamped (s.step toLowercase e) := by
  have hsame : ∀ {s' : System}, s'.cache = s.cache → s'.gens = s.gens → s'.noted = s.noted → Stamped s' :=
    fun hcache hgens hnoted => h.narrow (.of_eq (by rw [hcache])) hgens hnoted
  cases e with
  | next l saved =>
    unfold System.step
    dsimp only
    split
    · next lister hl => exact h.advance saved hl htimely
    · exact h
  | note w =>
    unfold System.step
    dsimp only
    split
    · exact h.note _
    · exact h
  | change w rel entries stamp =>
    unfold System.step
    dsimp only
    split
    · exact hsame rfl rfl rfl
    · exact h
  | cache op => exact h.narrow (narrows_cacheOp toLowercase s.now op s.cache) rfl rfl
  | list l key | quit l | write w drive | forget key | outside key entries stamp | tick n => exact hsame rfl rfl rfl

end

theorem run_concat (s : System) (events : List Event) (e : Event) :
    s.run toLowercase (events ++ [e]) = (s.run toLowercase events).step toLowercase e := by
  rw [run, foldl_append]
  rfl

/-- All puts of the run were timely. -/
def TimelyRun (s : System) (events : List Event) : Prop :=
  ∀ before e, before ++ [e] <+: events → (s.run toLowercase before).Timely e

theorem Stamped.run (h : Stamped s) {events : List Event} (htimely : s.TimelyRun toLowercase events) :
    Stamped (s.run toLowercase events) := by
  induction events using reverseRecOn with
  | nil => exact h
  | append_singleton events e ih =>
    rw [run_concat]
    apply Stamped.step
    · exact ih fun before e' hpre => htimely before e' (hpre.trans (prefix_append _ _))
    · exact htimely events e (prefix_refl _)

/-- A put that is not timely is found at once. -/
theorem not_fresh_of_not_timely {e : Event} (h : ¬ s.Timely e) : ¬ Fresh (s.step toLowercase e) := by
  intro hfresh
  apply h
  cases e with
  | next l saved =>
    intro key mtime read hl
    simp only [System.step, hl] at hfresh
    exact hfresh key none read (getListing_putListing s.gens s.now key mtime read s.cache none)
  | _ => trivial

/-- **What the cache answers is as new as Luna's own writes, or some put came too late.** At every moment of a run
`get_listing` yields only listings read after every noted change, if and only if no listing was put once a write
that had changed the folder since it was read had been noted. -/
theorem listings_fresh_iff (folders : Key → Folder) (index : Table Key IndexRow) (now : Nat) (events : List Event) :
    (∀ before, before <+: events → Fresh ((start folders index now).run toLowercase before)) ↔
      (start folders index now).TimelyRun toLowercase events := by
  constructor
  · intro hfresh before e hpre
    by_contra hlate
    have hafter := hfresh _ hpre
    rw [run_concat] at hafter
    exact not_fresh_of_not_timely toLowercase hlate hafter
  · intro htimely before hpre
    have hbefore : (start folders index now).TimelyRun toLowercase before :=
      fun before' e hpre' => htimely before' e (hpre'.trans hpre)
    exact ((stamped_start folders index now).run toLowercase hbefore).fresh

/-- A folder is read while it is empty; a file is saved there and the write noted; only then is the empty listing
put. -/
def lateEvents : List Event :=
  let docs : Key := ("usb", ["docs".toList])
  let file : FileEntry := ⟨"a".toList, .file, 1, 10, false, false, false⟩
  [.list 0 docs, .next 0 true, .next 0 true, .next 0 true, .next 0 true, .next 0 true, .next 0 true,
    .write 0 "usb", .change 0 docs.2 [file] 10, .note 0, .next 0 true]

/-- The answer afterwards is the empty folder from before the write, though the write has been noted. -/
theorem late_listing_answered :
    ¬ Fresh ((start (fun _ => ⟨[], 0, 0⟩) .empty 0).run id lateEvents) := by
  intro h
  have hstale := h ("usb", ["docs".toList]) none ⟨[], 0⟩ (by decide +kernel)
  revert hstale
  decide +kernel

end System

end

end LibreServ.RamCache
