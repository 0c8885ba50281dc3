import LibreServ.OfficeDocs

/-! What every call keeps in the session of an office document, and what a call of somebody who may only read leaves
alone there. -/

namespace LibreServ.Office

open List Option Table DocSession
open Files (Text)

variable {time : Int} {old : Nat} {l : BlockLock}

/-! ### Readers hold no locks -/

/-- No lock stands under a reader's name, and no writer goes by one. -/
structure Fenced (participants : Table Nat Participant) (locks : Table Text BlockLock) : Prop where
  locks : ∀ sock p, participants.get? sock = some p → p.write = false →
    ∀ k l, locks.get? k = some l → l.user ≠ p.id
  names : ∀ sock p, participants.get? sock = some p → p.write = false →
    ∀ sock' p', participants.get? sock' = some p' → p'.write = true → p'.id ≠ p.id

namespace Fenced

variable {participants participants' : Table Nat Participant} {locks locks' : Table Text BlockLock}

theorem empty : Fenced Table.empty Table.empty where
  locks := nofun
  names := nofun

section

variable (h : Fenced participants locks)
include h

theorem fewer_locks (hsub : ∀ k l, locks'.get? k = some l → locks.get? k = some l) : Fenced participants locks' where
  locks := fun sock p hp hread k l hl => h.locks sock p hp hread k l (hsub k l hl)
  names := h.names

theorem keep (f : Text → BlockLock → Bool) : Fenced participants (locks.keep f) := by
  apply h.fewer_locks
  intro k l hl
  exact (get?_keep_some.mp hl).1

theorem erase (sock : Nat) : Fenced (participants.erase sock) locks := by
  have hsub : ∀ other p, (participants.erase sock).get? other = some p → participants.get? other = some p := by
    intro other p hp
    exact (get?_erase_some.mp hp).2
  constructor
  · intro other p hp
    exact h.locks other p (hsub other p hp)
  · intro other p hp hread other' p' hp'
    exact h.names other p (hsub other p hp) hread other' p' (hsub other' p' hp')

/-- Participants change, their names and rights do not. -/
theorem update {f : Nat → Participant → Participant}
    (hid : ∀ sock p, (f sock p).id = p.id) (hwrite : ∀ sock p, (f sock p).write = p.write) :
    Fenced (participants.update f) locks := by
  constructor
  · intro sock p hp hread
    obtain ⟨q, hq, rfl⟩ := get?_update_some.mp hp
    rw [hid]
    exact h.locks sock q hq ((hwrite sock q).symm.trans hread)
  · intro sock p hp hread sock' p' hp' hwrites
    rw [get?_update, map_eq_some_iff] at hp hp'
    obtain ⟨q, hq, rfl⟩ := hp
    obtain ⟨q', hq', rfl⟩ := hp'
    rw [hid, hid]
    exact h.names sock q hq ((hwrite sock q).symm.trans hread) sock' q' hq' ((hwrite sock' q').symm.trans hwrites)

/-- Somebody takes a place, with locks of its own if it may write. -/
theorem put {sock : Nat} {p : Participant}
    (hlocks : ∀ k l, locks'.get? k = some l → locks.get? k = some l ∨ l.user = p.id)
    (hwriter : p.write = true → ∀ other q, other ≠ sock → participants.get? other = some q → q.write = false →
      q.id ≠ p.id)
    (hreader : p.write = false → (∀ k l, locks'.get? k = some l → locks.get? k = some l ∧ l.user ≠ p.id) ∧
      ∀ other q, other ≠ sock → participants.get? other = some q → q.write = true → q.id ≠ p.id) :
    Fenced (participants.put sock p) locks' := by
  constructor
  · intro other q hq hread k l hl
    rcases get?_put_some.mp hq with ⟨-, rfl⟩ | ⟨hother, hq⟩
    · exact ((hreader hread).1 k l hl).2
    rcases hlocks k l hl with hold | hnew
    · exact h.locks other q hq hread k l hold
    · intro hsame
      cases hp : p.write with
      | true => exact hwriter hp other q hother hq hread (hsame.symm.trans hnew)
      | false => exact ((hreader hp).1 k l hl).2 hnew
  · intro other q hq hread other' q' hq' hwrites
    rw [get?_put] at hq hq'
    split at hq
    · obtain rfl := some.inj hq
      split at hq'
      · obtain rfl := some.inj hq'
        rw [hread] at hwrites
        cases hwrites
      · rename_i hother'
        exact (hreader hread).2 other' q' hother' hq' hwrites
    · rename_i hother
      split at hq'
      · obtain rfl := some.inj hq'
        exact fun hsame => hwriter hwrites other q hother hq hread hsame.symm
      · exact h.names other q hq hread other' q' hq' hwrites

end

end Fenced

/-! ### The log of edits -/

/-- The edits kept are those above the bundle, and their bytes are counted. -/
structure LogOk (s : DocSession) : Prop where
  above : ∀ op ∈ s.ops, s.baseIndex < op.idx ∧ op.idx ≤ s.changeIndex
  span : s.baseIndex ≤ s.changeIndex
  bytes : s.opBytes = (s.ops.map fun op => byteLen op.change).sum

namespace LogOk

variable {s s' : DocSession}

theorem of_same (h : LogOk s) (hops : s'.ops = s.ops) (hbase : s'.baseIndex = s.baseIndex)
    (hchange : s'.changeIndex = s.changeIndex) (hbytes : s'.opBytes = s.opBytes) : LogOk s' where
  above := by
    rw [hops, hbase, hchange]
    exact h.above
  span := by
    rw [hbase, hchange]
    exact h.span
  bytes := by
    rw [hops, hbytes]
    exact h.bytes

theorem truncateOps (h : LogOk s) (deleteIndex : Int) : LogOk (s.truncateOps deleteIndex) := by
  unfold DocSession.truncateOps
  split
  · refine ⟨?_, Int.le_max_right _ _, rfl⟩
    intro op hop
    have hmem := mem_filter.mp hop
    have hle := of_decide_eq_true hmem.2
    have habove := h.above op hmem.1
    show s.baseIndex < op.idx ∧ op.idx ≤ max deleteIndex s.baseIndex
    omega
  · exact h

theorem records_idx {p : Participant} {start : Int} {changes : List Text} :
    ∀ op ∈ records time p start changes, start < op.idx ∧ op.idx ≤ start + changes.length := by
  induction changes generalizing start with
  | nil =>
    intro op hop
    cases hop
  | cons change rest ih =>
    intro op hop
    rw [records, mem_cons] at hop
    rw [length_cons]
    rcases hop with rfl | hop
    · constructor
      · simp only
        omega
      · simp only
        omega
    · have hidx := ih op hop
      omega

theorem records_change {p : Participant} {start : Int} {changes : List Text} :
    (records time p start changes).map OpRecord.change = changes := by
  induction changes generalizing start with
  | nil => rfl
  | cons change rest ih => rw [records, map_cons, ih]

theorem appendOps (h : LogOk s) (time : Int) (p : Participant) (changes : List Text) :
    LogOk (s.appendOps time p changes) := by
  have hspan := h.span
  constructor
  · intro op hop
    show s.baseIndex < op.idx ∧ op.idx ≤ s.changeIndex + changes.length
    rcases mem_append.mp hop with hold | hnew
    · have hop := h.above op hold
      omega
    · have hop := records_idx op hnew
      omega
  · show s.baseIndex ≤ s.changeIndex + changes.length
    omega
  · show s.opBytes + (changes.map byteLen).sum = ((s.ops ++ _).map _).sum
    rw [map_append, sum_append, ← h.bytes]
    congr 1
    have hmap : (records time p s.changeIndex changes).map (fun op => byteLen op.change) =
        ((records time p s.changeIndex changes).map OpRecord.change).map byteLen := by
      rw [List.map_map]
      rfl
    rw [hmap, records_change]

theorem bundleRefreshed (h : LogOk s) (now : Clock) (user : Text) (coverage : Option Int) :
    LogOk (s.bundleRefreshed now user coverage) := by
  unfold DocSession.bundleRefreshed
  split
  · exact h
  have hspan := h.span
  refine ⟨?_, ?_, rfl⟩
  · intro op hop
    have hmem := mem_filter.mp hop
    exact ⟨of_decide_eq_true hmem.2, (h.above op hmem.1).2⟩
  · show max s.baseIndex _ ≤ s.changeIndex
    omega

end LogOk

/-! ### One session -/

/-- What every session keeps. -/
structure DocSession.Guarded (s : DocSession) : Prop where
  fenced : Fenced s.participants s.locks
  log : LogOk s

/-- What a reader's message leaves as it is. -/
structure Unharmed (now : Clock) (sock : Nat) (s s' : DocSession) : Prop where
  ops : s'.ops = s.ops
  baseIndex : s'.baseIndex = s.baseIndex
  changeIndex : s'.changeIndex = s.changeIndex
  opBytes : s'.opBytes = s.opBytes
  locks : s'.locks = s.locks
  saveHolder : ∀ holder since, s.saveHolder = some (holder, since) → holder ≠ sock →
    now.instant - since ≤ saveLockTtl → s'.saveHolder = s.saveHolder
  saveElection : ∀ holder since, s.saveElection = some (holder, since) → holder ≠ sock →
    now.instant - since ≤ saveElectionTtl → (s.participants.get? holder).isSome → s'.saveElection = s.saveElection

/-- A reader that joins replaces nobody who holds something, gets no block, and goes by a name of its own. -/
structure ReaderJoins (s : DocSession) (now : Clock) (sock : Nat) (idOriginal : Text) (m : AuthMsg) : Prop where
  replaced : ∀ old p, m.rejoin sock = some old → s.participants.get? old = some p → p.idOriginal = idOriginal →
    (∀ k l, s.locks.get? k = some l → l.user ≠ p.id) ∧
      (∀ since, s.saveHolder = some (old, since) → saveLockTtl < now.instant - since) ∧
      ∀ since, s.saveElection = some (old, since) → saveElectionTtl < now.instant - since
  blocks : m.isRestore = true → m.view = false → s.deadEra sock m = false →
    s.restoreOk (s.joinId idOriginal m) m = true → ∀ b ∈ m.block.getD [], (s.locks.get? (lockKey b)).isSome
  locks : ∀ k l, s.locks.get? k = some l → l.user ≠ s.joinId idOriginal m
  writers : ∀ other p, s.participants.get? other = some p → other ≠ sock → m.rejoin sock ≠ some other →
    p.write = true → p.id ≠ s.joinId idOriginal m

/-- A writer that joins does not go by a reader's name. -/
def WriterJoins (s : DocSession) (sock : Nat) (idOriginal : Text) (m : AuthMsg) : Prop :=
  ∀ other p, s.participants.get? other = some p → other ≠ sock → m.rejoin sock ≠ some other →
    p.write = false → p.id ≠ s.joinId idOriginal m

def Joins (s : DocSession) (now : Clock) (sock : Nat) (idOriginal : Text) (m : AuthMsg) (canWrite : Bool) : Prop :=
  if canWrite then WriterJoins s sock idOriginal m else ReaderJoins s now sock idOriginal m

/-- The index a client goes back to is not below the newest one, or there is no edit above the bundle. -/
def RewindsNothing (s : DocSession) (m : UnlockMsg) : Prop :=
  ∀ i, m.deleteIndex = some i → i ≠ -1 →
    sub64 s.changeIndex i ≤ 0 ∨ i ≤ s.changeIndex ∧ s.changeIndex ≤ s.baseIndex

/-- Nothing of the document, its locks and its saves is different. -/
structure Untouched (s s' : DocSession) : Prop where
  ops : s'.ops = s.ops
  baseIndex : s'.baseIndex = s.baseIndex
  changeIndex : s'.changeIndex = s.changeIndex
  opBytes : s'.opBytes = s.opBytes
  locks : s'.locks = s.locks
  saveHolder : s'.saveHolder = s.saveHolder
  saveElection : s'.saveElection = s.saveElection

section Session

variable {now : Clock} {sock : Nat} {s s' s'' : DocSession}

theorem Unharmed.and_then (h : Unharmed now sock s s') (h' : Untouched s' s'') : Unharmed now sock s s'' where
  ops := h'.ops.trans h.ops
  baseIndex := h'.baseIndex.trans h.baseIndex
  changeIndex := h'.changeIndex.trans h.changeIndex
  opBytes := h'.opBytes.trans h.opBytes
  locks := h'.locks.trans h.locks
  saveHolder := fun holder since hs hne hlive => h'.saveHolder.trans (h.saveHolder holder since hs hne hlive)
  saveElection := fun holder since hs hne hlive hin =>
    h'.saveElection.trans (h.saveElection holder since hs hne hlive hin)

theorem Untouched.unharmed (h : Untouched s s') : Unharmed now sock s s' where
  ops := h.ops
  baseIndex := h.baseIndex
  changeIndex := h.changeIndex
  opBytes := h.opBytes
  locks := h.locks
  saveHolder := fun _ _ _ _ _ => h.saveHolder
  saveElection := fun _ _ _ _ _ _ => h.saveElection

theorem Untouched.rfl' : Untouched s s := ⟨rfl, rfl, rfl, rfl, rfl, rfl, rfl⟩

theorem untouched_touch : Untouched s (s.touch now) := ⟨rfl, rfl, rfl, rfl, rfl, rfl, rfl⟩

theorem untouched_takeIndex (m : AuthMsg) : Untouched s (s.takeIndex m) := by
  unfold takeIndex
  split
  · exact ⟨rfl, rfl, rfl, rfl, rfl, rfl, rfl⟩
  · exact Untouched.rfl'

theorem takeIndex_participants (m : AuthMsg) : (s.takeIndex m).participants = s.participants := by
  unfold takeIndex
  split
  · rfl
  · rfl

theorem LogOk.untouched (h : LogOk s) (hs : Untouched s s') : LogOk s' :=
  h.of_same hs.ops hs.baseIndex hs.changeIndex hs.opBytes

theorem DocSession.Guarded.touch (h : s.Guarded) : (s.touch now).Guarded := ⟨h.fenced, h.log.untouched untouched_touch⟩

/-! ### Joining -/

variable {locks : Table Text BlockLock} {blocks : List Block} {user : Text}

/-- Every block listed is somebody's already. -/
theorem regrant_taken
    (h : ∀ b ∈ blocks, (locks.get? (lockKey b)).isSome) : regrant time user blocks locks = (false, locks) := by
  induction blocks with
  | nil => rfl
  | cons b rest ih =>
    obtain ⟨l, hl⟩ := isSome_iff_exists.mp (h b mem_cons_self)
    rw [regrant, hl]
    exact ih fun b' hb' => h b' (mem_cons_of_mem _ hb')

theorem regrant_get? {k : Text}
    (h : (regrant time user blocks locks).2.get? k = some l) :
    locks.get? k = some l ∨ l.user = user := by
  induction blocks generalizing locks with
  | nil => exact .inl h
  | cons b rest ih =>
    rw [regrant] at h
    split at h
    · exact ih h
    · rcases ih h with hput | huser
      · rcases get?_put_some.mp hput with ⟨-, rfl⟩ | ⟨-, hput⟩
        · exact .inr rfl
        · exact .inl hput
      · exact .inr huser

section Auth

variable {idOriginal username : Text} {m : AuthMsg} {canWrite : Bool}

/-- What `enter` asks of a reader. -/
structure ReaderEnters (s : DocSession) (sock : Nat) (idOriginal : Text) (m : AuthMsg) : Prop where
  blocks : m.isRestore = true → m.view = false → s.restoreOk (s.joinId idOriginal m) m = true →
    ∀ b ∈ m.block.getD [], (s.locks.get? (lockKey b)).isSome
  locks : ∀ k l, s.locks.get? k = some l → l.user ≠ s.joinId idOriginal m
  writers : ∀ other p, other ≠ sock → s.participants.get? other = some p → p.write = true → p.id ≠ s.joinId idOriginal m

theorem ReaderEnters.locks_eq (h : ReaderEnters s sock idOriginal m) {locks : Table Text BlockLock}
    (hlocks : locks = s.locks ∨ m.isRestore = true ∧ m.view = false ∧ s.restoreOk (s.joinId idOriginal m) m = true ∧
      locks = (regrant now.ms (s.joinId idOriginal m) (m.block.getD []) s.locks).2) : locks = s.locks := by
  rcases hlocks with hsame | ⟨hrestore, hview, hok, hgrant⟩
  · exact hsame
  · rw [hgrant, regrant_taken (h.blocks hrestore hview hok)]

theorem enter_reader (h : ReaderEnters s sock idOriginal m) :
    Untouched s (s.enter now sock idOriginal username m false).2 := by
  rcases @enter_cases s now sock idOriginal username m false with
    ⟨e, he⟩ | ⟨e, he⟩ | ⟨joined, locks, he, hlocks⟩
  · rw [he]
    exact Untouched.rfl'
  · rw [he]
    exact untouched_takeIndex m
  · rw [he]
    have hu := untouched_takeIndex (s := s) m
    exact ⟨hu.ops, hu.baseIndex, hu.changeIndex, hu.opBytes, h.locks_eq hlocks, hu.saveHolder, hu.saveElection⟩

theorem enter_guarded (hs : s.Guarded)
    (hwriter : canWrite = true → ∀ other q, other ≠ sock → s.participants.get? other = some q → q.write = false →
      q.id ≠ s.joinId idOriginal m)
    (hreader : canWrite = false → ReaderEnters s sock idOriginal m) :
    (s.enter now sock idOriginal username m canWrite).2.Guarded := by
  have hlog := hs.log.untouched (untouched_takeIndex m)
  rcases @enter_cases s now sock idOriginal username m canWrite with
    ⟨e, he⟩ | ⟨e, he⟩ | ⟨joined, locks, he, hlocks⟩
  · rw [he]
    exact hs
  · rw [he]
    refine ⟨?_, hlog⟩
    rw [takeIndex_participants, takeIndex_locks]
    exact hs.fenced
  · rw [he]
    refine ⟨?_, hlog.of_same rfl rfl rfl rfl⟩
    show Fenced ((s.takeIndex m).participants.put sock _) locks
    rw [takeIndex_participants]
    refine hs.fenced.put ?_ hwriter ?_
    · intro k l hl
      rcases hlocks with rfl | ⟨-, -, -, rfl⟩
      · exact .inl hl
      · exact regrant_get? hl
    · intro hread
      have henters := hreader hread
      rw [henters.locks_eq hlocks]
      exact ⟨fun k l hl => ⟨hl, henters.locks k l hl⟩, henters.writers⟩

variable {p : Participant}

theorem replaceSock_of (hp : s.participants.get? old = some p) : s.replaceSock now sock old =
      { s with
        participants := s.participants.erase old
        locks := s.locks.keep fun _ l => l.user ≠ p.id
        saveHolder := if s.saveHolder.any (fun h => h.1 = old) then none else s.saveHolder
        saveElection := if s.saveElection.any (fun h => h.1 = old) then some (sock, now.instant) else s.saveElection } := by
  unfold replaceSock
  rw [hp]

theorem replaceSock_guarded (hs : s.Guarded) (hp : s.participants.get? old = some p) :
    (s.replaceSock now sock old).Guarded := by
  rw [replaceSock_of hp]
  exact ⟨(hs.fenced.erase old).keep fun _ l => l.user ≠ p.id, hs.log.of_same rfl rfl rfl rfl⟩

/-- The one who is replaced holds nothing that is alive. -/
theorem replaceSock_unharmed (hp : s.participants.get? old = some p)
    (hlocks : ∀ k l, s.locks.get? k = some l → l.user ≠ p.id)
    (hholder : ∀ since, s.saveHolder = some (old, since) → saveLockTtl < now.instant - since)
    (helection : ∀ since, s.saveElection = some (old, since) → saveElectionTtl < now.instant - since) :
    Unharmed now sock s (s.replaceSock now sock old) := by
  rw [replaceSock_of hp]
  have hkeep : (s.locks.keep fun _ l => l.user ≠ p.id) = s.locks :=
    keep_eq_self fun k l hl => decide_eq_true (hlocks k l hl)
  refine ⟨rfl, rfl, rfl, rfl, hkeep, ?_, ?_⟩
  · intro holder since hs _ hlive
    have hother : holder ≠ old := by
      rintro rfl
      have hdead := hholder since hs
      omega
    simp [hs, hother]
  · intro holder since hs _ hlive _
    have hother : holder ≠ old := by
      rintro rfl
      have hdead := helection since hs
      omega
    simp [hs, hother]

section

variable (h : ReaderJoins s now sock idOriginal m)

include h

theorem ReaderJoins.enters
    (hlive : m.isRestore = true → s.deadEra sock m = false)
    (hgone : ((m.rejoin sock).bind fun old => s.participants.get? old) = none) :
    ReaderEnters (s.touch now) sock idOriginal m where
  blocks := fun hrestore hview hok => h.blocks hrestore hview (hlive hrestore) hok
  locks := h.locks
  writers := by
    intro other p hother hp hwrite
    refine h.writers other p hp hother ?_ hwrite
    intro hrejoin
    rw [hrejoin] at hgone
    exact absurd (hgone.symm.trans hp) nofun

theorem ReaderJoins.enters_replaced
    (hrejoin : m.rejoin sock = some old) (hp : s.participants.get? old = some p) (huser : p.idOriginal = idOriginal) :
    ReaderEnters ((s.touch now).replaceSock now sock old) sock idOriginal m := by
  have hkeep : (s.locks.keep fun _ l => l.user ≠ p.id) = s.locks :=
    keep_eq_self fun k l hl => decide_eq_true ((h.replaced old p hrejoin hp huser).1 k l hl)
  have hera : s.deadEra sock m = false := by
    unfold deadEra
    rw [hrejoin, bind_some, hp]
    simp
  have hpart : (s.touch now).participants.get? old = some p := hp
  rw [replaceSock_of hpart]
  constructor
  · intro hrestore hview hok b hb
    show ((s.locks.keep fun _ l => l.user ≠ p.id).get? (lockKey b)).isSome
    rw [hkeep]
    exact h.blocks hrestore hview hera hok b hb
  · intro k l hl
    have hl : (s.locks.keep fun _ l => l.user ≠ p.id).get? k = some l := hl
    rw [hkeep] at hl
    exact h.locks k l hl
  · intro other q hother hq hwrite
    obtain ⟨hold, hq⟩ := get?_erase_some.mp hq
    refine h.writers other q hq hother ?_ hwrite
    rw [hrejoin]
    exact fun hsame => hold (some.inj hsame).symm

theorem auth_reader :
    Unharmed now sock s (s.auth now sock idOriginal username m false).2 := by
  rcases @auth_cases s now sock idOriginal username m false with
    ⟨e, he⟩ | ⟨hlive, hgone, he⟩ | ⟨old, p, hrejoin, hp, huser, he⟩
  · rw [he]
    exact untouched_touch.unharmed
  · rw [he]
    exact (untouched_touch.unharmed).and_then (enter_reader (h.enters hlive hgone))
  · rw [he]
    obtain ⟨hlocks, hholder, helection⟩ := h.replaced old p hrejoin hp huser
    have hreplaced : Unharmed now sock s ((s.touch now).replaceSock now sock old) := by
      have hout : Unharmed now sock (s.touch now) _ := replaceSock_unharmed hp hlocks hholder helection
      exact ⟨hout.ops, hout.baseIndex, hout.changeIndex, hout.opBytes, hout.locks, hout.saveHolder, hout.saveElection⟩
    exact hreplaced.and_then (enter_reader (h.enters_replaced hrejoin hp huser))

end

theorem auth_guarded (hs : s.Guarded) (h : Joins s now sock idOriginal m canWrite) :
    (s.auth now sock idOriginal username m canWrite).2.Guarded := by
  have hwriter : canWrite = true → WriterJoins s sock idOriginal m := fun hw => by
    rw [Joins, if_pos hw] at h
    exact h
  have hreader : canWrite = false → ReaderJoins s now sock idOriginal m := fun hw => by
    rw [Joins, if_neg (by rw [hw]; exact Bool.false_ne_true)] at h
    exact h
  rcases @auth_cases s now sock idOriginal username m canWrite with
    ⟨e, he⟩ | ⟨hlive, hgone, he⟩ | ⟨old, p, hrejoin, hp, huser, he⟩
  · rw [he]
    exact hs.touch
  · rw [he]
    refine enter_guarded hs.touch ?_ fun hw => (hreader hw).enters hlive hgone
    intro hw other q hother hq hread
    refine hwriter hw other q hq hother ?_ hread
    intro hrejoin
    rw [hrejoin] at hgone
    exact absurd (hgone.symm.trans hq) nofun
  · rw [he]
    refine enter_guarded (replaceSock_guarded hs.touch hp) ?_ fun hw => (hreader hw).enters_replaced hrejoin hp huser
    have hpart : (s.touch now).participants.get? old = some p := hp
    rw [replaceSock_of hpart]
    intro hw other q hother hq hread
    obtain ⟨hold, hq⟩ := get?_erase_some.mp hq
    refine hwriter hw other q hq hother ?_ hread
    rw [hrejoin]
    exact fun hsame => hold (some.inj hsame).symm

end Auth

/-! ### The other messages of a reader -/

variable {p : Participant}

section

variable (hp : s.participants.get? sock = some p) (hread : p.write = false)
include hp hread

theorem saveChanges_reader (m : SaveMsg) : Untouched s (s.saveChanges now sock m).2 := by
  have hpart : (s.touch now).participants.get? sock = some p := hp
  unfold saveChanges
  simp only [hpart, hread]
  exact untouched_touch

theorem getLock_reader (block : Option (List Block)) : Untouched s (s.getLock now sock block).2 := by
  have hpart : (s.touch now).participants.get? sock = some p := hp
  unfold getLock
  simp only [hpart, hread]
  exact untouched_touch

theorem mayWrite_reader : ¬ (s.touch now).mayWrite sock = true := by
  have hpart : (s.touch now).participants.get? sock = some p := hp
  unfold mayWrite
  rw [hpart, any_some, hread]
  exact Bool.false_ne_true

theorem isSaveLock_reader : Untouched s (s.isSaveLock now sock).2 := by
  unfold isSaveLock
  rw [if_pos (mayWrite_reader hp hread)]
  exact untouched_touch

theorem lunaSaveLock_reader : Untouched s (s.lunaSaveLock now sock).2 := by
  unfold lunaSaveLock
  rw [if_pos (mayWrite_reader hp hread)]
  exact untouched_touch

end

/-- A save that is alive stays; one that is not may be cleared by anybody. -/
theorem clearHolder_unharmed (h : ¬ s.heldByOther now sock = true) :
    Unharmed now sock s { s with saveHolder := none } := by
  refine ⟨rfl, rfl, rfl, rfl, rfl, ?_, fun _ _ _ _ _ _ => rfl⟩
  intro holder since hs hne hlive
  exfalso
  apply h
  unfold heldByOther
  rw [hs, any_some, Bool.and_eq_true, decide_eq_true_eq, decide_eq_true_eq]
  exact ⟨hne, hlive⟩

theorem unSaveLock_unharmed : Unharmed now sock s (s.unSaveLock now sock).2 := by
  unfold unSaveLock
  simp only
  split
  · exact untouched_touch.unharmed
  · rename_i hfree
    have hout := clearHolder_unharmed (s := s.touch now) hfree
    exact ⟨hout.ops, hout.baseIndex, hout.changeIndex, hout.opBytes, hout.locks, hout.saveHolder, hout.saveElection⟩

theorem lunaSaveEnd_unharmed : Unharmed now sock s (s.lunaSaveEnd sock) := by
  unfold lunaSaveEnd
  split
  · rename_i hown
    refine ⟨rfl, rfl, rfl, rfl, rfl, fun _ _ _ _ _ => rfl, ?_⟩
    intro holder since hs hne _ _
    rw [hs, any_some, decide_eq_true_eq] at hown
    exact absurd hown hne
  · exact Untouched.rfl'.unharmed

/-- A session in which nothing stands above the bundle has no edits to go back over. -/
theorem truncateOps_nothing (hlog : LogOk s) {i : Int}
    (h : sub64 s.changeIndex i ≤ 0 ∨ i ≤ s.changeIndex ∧ s.changeIndex ≤ s.baseIndex) : Untouched s (s.truncateOps i) := by
  unfold truncateOps
  split
  · rename_i hcount
    rcases h with hnone | ⟨hbelow, hempty⟩
    · omega
    have hops : s.ops = [] := by
      apply eq_nil_iff_forall_not_mem.mpr
      intro op hop
      have habove := hlog.above op hop
      omega
    have hspan := hlog.span
    refine ⟨?_, rfl, ?_, ?_, rfl, rfl, rfl⟩
    · rw [hops]
      rfl
    · show max i s.baseIndex = s.changeIndex
      omega
    · rw [hlog.bytes, hops]
      rfl
  · exact Untouched.rfl'

theorem releaseBlocks_none (h : ∀ k l, locks.get? k = some l → l.user ≠ user) :
    releaseBlocks time user blocks locks = ([], locks) := by
  induction blocks with
  | nil => rfl
  | cons b rest ih =>
    have hnot : ¬ ((locks.get? (lockKey b)).any fun l => l.user = user) = true := by
      cases hl : locks.get? (lockKey b) with
      | none => exact Bool.false_ne_true
      | some l =>
        rw [any_some, decide_eq_true_eq]
        exact h _ l hl
    rw [releaseBlocks, if_neg hnot, ih]

theorem releaseParticipantLocks_none (h : ∀ k l, s.locks.get? k = some l → l.user ≠ user) :
    Untouched s (s.releaseParticipantLocks now user).2 :=
  ⟨rfl, rfl, rfl, rfl, keep_eq_self fun k l hl => decide_eq_true (h k l hl), rfl, rfl⟩

theorem Untouched.trans (h : Untouched s s') (h' : Untouched s' s'') : Untouched s s'' where
  ops := h'.ops.trans h.ops
  baseIndex := h'.baseIndex.trans h.baseIndex
  changeIndex := h'.changeIndex.trans h.changeIndex
  opBytes := h'.opBytes.trans h.opBytes
  locks := h'.locks.trans h.locks
  saveHolder := h'.saveHolder.trans h.saveHolder
  saveElection := h'.saveElection.trans h.saveElection

theorem unlock_eq (hp : s.participants.get? sock = some p) (m : UnlockMsg) : (s.unlock now sock m).2 =
      if m.isSave ∧ ¬ (((s.touch now).rewound m).givenBack now p m).2.heldByOther now sock then
        { (((s.touch now).rewound m).givenBack now p m).2 with saveHolder := none }
      else (((s.touch now).rewound m).givenBack now p m).2 := by
  have hpart : (s.touch now).participants.get? sock = some p := hp
  unfold unlock
  simp only [hpart]
  exact apply_ite Prod.snd _ _ _

theorem rewound_nothing (hlog : LogOk s) {m : UnlockMsg} (h : RewindsNothing s m) : Untouched s (s.rewound m) := by
  unfold rewound
  split
  · rename_i i hi
    split
    · rename_i hne
      exact truncateOps_nothing hlog (h i hi hne)
    · exact Untouched.rfl'
  · exact Untouched.rfl'

theorem givenBack_none {m : UnlockMsg} (h : ∀ k l, s.locks.get? k = some l → l.user ≠ p.id) :
    Untouched s (s.givenBack now p m).2 := by
  unfold givenBack
  split
  · rw [releaseBlocks_none h]
    exact Untouched.rfl'
  · split
    · exact releaseParticipantLocks_none h
    · exact Untouched.rfl'

theorem unlock_reader (hs : s.Guarded) (hp : s.participants.get? sock = some p)
    (hread : p.write = false) {m : UnlockMsg} (hm : RewindsNothing s m) :
    Unharmed now sock s (s.unlock now sock m).2 := by
  have hrewound : Untouched s ((s.touch now).rewound m) :=
    untouched_touch.trans (rewound_nothing (s := s.touch now) hs.touch.log hm)
  have hback : Untouched s (((s.touch now).rewound m).givenBack now p m).2 := by
    refine hrewound.trans (givenBack_none ?_)
    rw [hrewound.locks]
    exact hs.fenced.locks sock p hp hread
  rw [unlock_eq hp]
  split
  · rename_i hsave
    refine ⟨hback.ops, hback.baseIndex, hback.changeIndex, hback.opBytes, hback.locks, ?_, fun _ _ _ _ _ _ => hback.saveElection⟩
    intro holder since hheld hne hlive
    exfalso
    apply hsave.2
    unfold heldByOther
    rw [hback.saveHolder, hheld, any_some, Bool.and_eq_true, decide_eq_true_eq, decide_eq_true_eq]
    exact ⟨hne, hlive⟩
  · exact hback.unharmed

/-! ### Every call keeps the invariant -/

theorem DocSession.Guarded.of_same (h : s.Guarded) (hpart : s'.participants = s.participants)
    (hlocks : s'.locks = s.locks) (hops : s'.ops = s.ops) (hbase : s'.baseIndex = s.baseIndex)
    (hchange : s'.changeIndex = s.changeIndex) (hbytes : s'.opBytes = s.opBytes) : s'.Guarded := by
  refine ⟨?_, h.log.of_same hops hbase hchange hbytes⟩
  rw [hpart, hlocks]
  exact h.fenced

theorem guarded_new (now : Clock) (driveId path : Text) : (DocSession.new now driveId path).Guarded where
  fenced := Fenced.empty
  log := {
    above := nofun
    span := Int.le_refl _
    bytes := rfl }

section

variable (h : s.Guarded)
include h

theorem DocSession.Guarded.truncateOps (i : Int) : (s.truncateOps i).Guarded := by
  refine ⟨?_, h.log.truncateOps i⟩
  unfold DocSession.truncateOps
  split
  · exact h.fenced
  · exact h.fenced

theorem DocSession.Guarded.releaseParticipantLocks (user : Text) : (s.releaseParticipantLocks now user).2.Guarded :=
  ⟨h.fenced.keep fun _ l => l.user ≠ user, h.log.of_same rfl rfl rfl rfl⟩

theorem DocSession.Guarded.markDelivered : s.markDelivered.Guarded :=
  ⟨h.fenced.update (f := fun _ p => { p with deliveredIndex := s.changeIndex }) (fun _ _ => rfl) fun _ _ => rfl,
    h.log.of_same rfl rfl rfl rfl⟩

theorem DocSession.Guarded.undone (m : SaveMsg) : (s.undone m).Guarded := by
  unfold DocSession.undone
  split
  · exact h.truncateOps _
  · exact h

theorem DocSession.Guarded.saveReleases (p : Participant) (m : SaveMsg) : (s.saveReleases now p m).2.Guarded := by
  unfold DocSession.saveReleases
  split
  · exact h.releaseParticipantLocks p.id
  · exact h

theorem DocSession.Guarded.flush (p : Participant) (m : SaveMsg) : (s.flush now sock p m).2.Guarded := by
  have hheld : DocSession.Guarded { s with saveHolder := some (sock, now.instant) } := h.of_same rfl rfl rfl rfl rfl rfl
  have hcut := hheld.undone m
  have hnew : DocSession.Guarded ((DocSession.undone { s with saveHolder := some (sock, now.instant) } m).appendOps
      now.ms p m.changes) := ⟨hcut.fenced, hcut.log.appendOps now.ms p m.changes⟩
  have hback : (DocSession.saveReleases _ now p m).2.Guarded := hnew.saveReleases p m
  have hsent := hback.markDelivered
  unfold DocSession.flush
  simp only
  split
  · exact hsent.of_same rfl rfl rfl rfl rfl rfl
  · exact hsent

theorem DocSession.Guarded.saveChanges (m : SaveMsg) : (s.saveChanges now sock m).2.Guarded := by
  unfold DocSession.saveChanges
  simp only
  split
  · exact h.touch
  split
  · exact h.touch
  · split
    · exact h.touch
    · split
      · exact h.touch
      · exact h.touch.flush _ m

end

theorem grantBlocks_get? {k : Text}
    (h : (grantBlocks time user blocks locks).get? k = some l) :
    locks.get? k = some l ∨ l.user = user := by
  unfold grantBlocks at h
  induction blocks generalizing locks with
  | nil => exact .inl h
  | cons b rest ih =>
    rw [foldl_cons] at h
    rcases ih h with hfirst | huser
    · split at hfirst
      · exact .inl hfirst
      · rcases get?_put_some.mp hfirst with ⟨-, rfl⟩ | ⟨-, hfirst⟩
        · exact .inr rfl
        · exact .inl hfirst
    · exact .inr huser

theorem DocSession.Guarded.getLock (h : s.Guarded) (block : Option (List Block)) :
    (s.getLock now sock block).2.Guarded := by
  unfold DocSession.getLock
  simp only
  split
  · exact h.touch
  rename_i p hp
  split
  · exact h.touch
  rename_i hwrite
  refine ⟨⟨?_, h.fenced.names⟩, h.log.of_same rfl rfl rfl rfl⟩
  intro other q hq hread k l hl
  rcases grantBlocks_get? hl with hold | hnew
  · exact h.fenced.locks other q hq hread k l hold
  · rw [hnew]
    exact h.fenced.names other q hq hread sock p hp (not_not.mp hwrite)

theorem releaseBlocks_get? {k : Text}
    (h : (releaseBlocks time user blocks locks).2.get? k = some l) :
    locks.get? k = some l := by
  induction blocks generalizing locks with
  | nil => exact h
  | cons b rest ih =>
    rw [releaseBlocks] at h
    split at h
    · have hrest := ih h
      exact (get?_erase_some.mp hrest).2
    · exact ih h

section

variable (h : s.Guarded)
include h

theorem DocSession.Guarded.rewound (m : UnlockMsg) : (s.rewound m).Guarded := by
  unfold DocSession.rewound
  split
  · split
    · exact h.truncateOps _
    · exact h
  · exact h

theorem DocSession.Guarded.givenBack (p : Participant) (m : UnlockMsg) : (s.givenBack now p m).2.Guarded := by
  unfold DocSession.givenBack
  split
  · exact ⟨h.fenced.fewer_locks fun k l hl => releaseBlocks_get? hl, h.log.of_same rfl rfl rfl rfl⟩
  · split
    · exact h.releaseParticipantLocks p.id
    · exact h

theorem DocSession.Guarded.unlock (m : UnlockMsg) : (s.unlock now sock m).2.Guarded := by
  cases hp : s.participants.get? sock with
  | none =>
    have hpart : (s.touch now).participants.get? sock = none := hp
    unfold DocSession.unlock
    simp only [hpart]
    exact h.touch
  | some p =>
    have hback : (((s.touch now).rewound m).givenBack now p m).2.Guarded := (h.touch.rewound m).givenBack p m
    rw [unlock_eq hp]
    split
    · exact hback.of_same rfl rfl rfl rfl rfl rfl
    · exact hback

theorem DocSession.Guarded.isSaveLock : (s.isSaveLock now sock).2.Guarded := by
  unfold DocSession.isSaveLock
  simp only
  split
  · exact h.touch
  · split
    · exact h.touch
    · exact h.of_same rfl rfl rfl rfl rfl rfl

theorem DocSession.Guarded.unSaveLock : (s.unSaveLock now sock).2.Guarded := by
  unfold DocSession.unSaveLock
  simp only
  split
  · exact h.touch
  · exact h.of_same rfl rfl rfl rfl rfl rfl

theorem DocSession.Guarded.lunaSaveLock : (s.lunaSaveLock now sock).2.Guarded := by
  unfold DocSession.lunaSaveLock
  simp only
  split
  · exact h.touch
  · split
    · exact h.touch
    · exact h.of_same rfl rfl rfl rfl rfl rfl

theorem DocSession.Guarded.lunaSaveEnd : (s.lunaSaveEnd sock).Guarded := by
  unfold DocSession.lunaSaveEnd
  split
  · exact h.of_same rfl rfl rfl rfl rfl rfl
  · exact h

theorem DocSession.Guarded.bundleRefreshed (user : Text) (coverage : Option Int) :
    (s.bundleRefreshed now user coverage).Guarded := by
  refine ⟨?_, h.log.bundleRefreshed now user coverage⟩
  unfold DocSession.bundleRefreshed
  split
  · exact h.fenced
  · exact h.fenced

theorem DocSession.Guarded.disconnect : (s.disconnect now sock).2.Guarded := by
  unfold DocSession.disconnect
  split
  · exact h.of_same rfl rfl rfl rfl rfl rfl
  · next p _ =>
      have herased : DocSession.Guarded { s with participants := s.participants.erase sock } :=
        ⟨h.fenced.erase sock, h.log.of_same rfl rfl rfl rfl⟩
      have hleft : (DocSession.releaseParticipantLocks { s with participants := s.participants.erase sock } now
          p.id).2.Guarded := herased.releaseParticipantLocks _
      exact hleft.of_same rfl rfl rfl rfl rfl rfl

end

end Session

end LibreServ.Office
