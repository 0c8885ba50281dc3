import LibreServ.Numbered
import LibreServ.OfficeBundle

/-! Whoever joins a document gets the live one, as long as joining and uploading keep out of each other's way. -/

namespace LibreServ.Bundle

open List Option Table
open Files (Text)

open Office (AuthMsg Clock DocSession Frame OpRecord Participant SaveMsg)

/-! ### The session's log -/

section Log

variable {s s' : DocSession} {now : Clock} {sock : Nat}

/-- The log is as it was, and nobody has come. -/
structure Quiet (s s' : DocSession) : Prop where
  ops : s'.ops = s.ops
  baseIndex : s'.baseIndex = s.baseIndex
  changeIndex : s'.changeIndex = s.changeIndex
  present : ∀ k, (s'.participants.get? k).isSome → (s.participants.get? k).isSome

theorem Quiet.of_same (hops : s'.ops = s.ops) (hbase : s'.baseIndex = s.baseIndex)
    (hchange : s'.changeIndex = s.changeIndex) (hparts : s'.participants = s.participants) : Quiet s s' where
  ops := hops
  baseIndex := hbase
  changeIndex := hchange
  present := by
    intro k hk
    rw [hparts] at hk
    exact hk

theorem Quiet.touch : Quiet s (s.touch now) := Quiet.of_same rfl rfl rfl rfl

theorem Quiet.lunaSaveLock (s : DocSession) (now : Clock) (sock : Nat) : Quiet s (s.lunaSaveLock now sock).2 := by
  unfold DocSession.lunaSaveLock
  dsimp only
  split
  · exact Quiet.touch
  · split
    · exact Quiet.touch
    · exact Quiet.of_same rfl rfl rfl rfl

theorem Quiet.lunaSaveEnd (s : DocSession) (sock : Nat) : Quiet s (s.lunaSaveEnd sock) := by
  unfold DocSession.lunaSaveEnd
  split
  · exact Quiet.of_same rfl rfl rfl rfl
  · exact Quiet.of_same rfl rfl rfl rfl

theorem Quiet.disconnect (s : DocSession) (now : Clock) (sock : Nat) : Quiet s (s.disconnect now sock).2 := by
  unfold DocSession.disconnect
  cases hp : s.participants.get? sock with
  | none => exact Quiet.of_same rfl rfl rfl rfl
  | some p =>
    refine ⟨rfl, rfl, rfl, ?_⟩
    intro k hk
    have hget : ((s.participants.erase sock).get? k).isSome := hk
    rw [get?_erase] at hget
    split at hget
    · cases hget
    · exact hget

theorem exists_takeIndex (s : DocSession) (m : AuthMsg) : ∃ n, s.takeIndex m = { s with nextIndexUser := n } := by
  unfold DocSession.takeIndex
  split
  · exact ⟨_, rfl⟩
  · exact ⟨s.nextIndexUser, rfl⟩

theorem flatMap_seat (s : DocSession) (sock : Nat) (p : Participant) (regranted : Bool) :
    (s.seat sock p true regranted).1.replies.flatMap edits = s.replayFrom none := by
  unfold DocSession.seat
  rw [flatMap_append, Bool.true_and]
  split
  · show s.replayFrom none ++ [] ++ ([] ++ []) = _
    rw [append_nil, append_nil, append_nil]
  rename_i hnone
  have hempty : s.replayFrom none = [] := by
    rw [decide_eq_true_eq] at hnone
    exact not_not.mp hnone
  rw [hempty]
  rfl

theorem auth_fresh {user username : Text} {m : AuthMsg} {canWrite : Bool} (hfresh : m.isRestore = false) :
    (∃ e, s.auth now sock user username m canWrite = (.error e, s.touch now)) ∨
      ∃ joined s', s.auth now sock user username m canWrite = (.ok joined, s') ∧
        joined.replies.flatMap edits = (if m.view then [] else s.replayFrom none) ∧
        s'.ops = s.ops ∧ s'.baseIndex = s.baseIndex ∧ s'.changeIndex = s.changeIndex ∧
        ∀ k, (s'.participants.get? k).isSome → k = sock ∨ (s.participants.get? k).isSome := by
  have hrejoin : m.rejoin sock = none := by
    unfold AuthMsg.isRestore at hfresh
    unfold AuthMsg.rejoin
    cases hid : m.sessionId with
    | absent | null => rfl
    | value sock' =>
      rw [hid] at hfresh
      cases hfresh
  have hauth : s.auth now sock user username m canWrite = (s.touch now).enter now sock user username m canWrite := by
    unfold DocSession.auth
    simp [hrejoin, hfresh]
  rw [hauth]
  unfold DocSession.enter
  split
  · exact .inl ⟨_, rfl⟩
  right
  have hrestore : ¬ (m.isRestore = true ∧ ¬ ((s.touch now).newcomer user username m canWrite).view = true) := by
    rw [hfresh]
    exact fun h => Bool.noConfusion h.1
  rw [if_neg hrestore, hfresh, Bool.not_false]
  obtain ⟨n, htake⟩ := exists_takeIndex (s.touch now) m
  rw [htake]
  refine ⟨_, _, rfl, ?_, rfl, rfl, rfl, ?_⟩
  · have hview : ((s.touch now).newcomer user username m canWrite).view = m.view := rfl
    rw [hview]
    cases hm : m.view with
    | false => exact flatMap_seat _ _ _ _
    | true => rfl
  · intro k hk
    have hget : ((s.participants.put sock ((s.touch now).newcomer user username m canWrite)).get? k).isSome := hk
    rw [get?_put] at hget
    split at hget
    · rename_i hk
      exact .inl hk
    · exact .inr hget

theorem saveReleases_quiet (s : DocSession) (now : Clock) (p : Participant) (m : SaveMsg) :
    ∃ locks, (s.saveReleases now p m).2 = { s with locks := locks } := by
  unfold DocSession.saveReleases
  split
  · exact ⟨_, rfl⟩
  · exact ⟨s.locks, rfl⟩

/-- The save takes nothing back of a log that reaches to this index. -/
def TakesNothing (m : SaveMsg) (changeIndex : Int) : Prop :=
  ∀ s : DocSession, s.changeIndex = changeIndex → s.undone m = s

theorem takesNothing_of_none {m : SaveMsg} (hdelete : m.deleteIndex = none) (changeIndex : Int) :
    TakesNothing m changeIndex := by
  intro s _
  unfold DocSession.undone
  rw [hdelete]
  exact if_neg fun h => h.2 rfl

theorem flush_edits (s : DocSession) (now : Clock) (sock : Nat) (p : Participant) (m : SaveMsg)
    (hnothing : TakesNothing m s.changeIndex) :
    ∃ replies f s', s.flush now sock p m = ((replies, some f), s') ∧
      edits f = DocSession.records now.ms p s.changeIndex m.changes ∧
      s'.ops = s.ops ++ DocSession.records now.ms p s.changeIndex m.changes ∧ s'.baseIndex = s.baseIndex ∧
      s'.changeIndex = s.changeIndex + m.changes.length ∧
      ∀ k, (s'.participants.get? k).isSome → (s.participants.get? k).isSome := by
  have hundone : ({ s with saveHolder := some (sock, now.instant) } : DocSession).undone m =
      { s with saveHolder := some (sock, now.instant) } := hnothing _ rfl
  unfold DocSession.flush
  dsimp only
  rw [hundone]
  obtain ⟨locks, hreleased⟩ :=
    saveReleases_quiet (({ s with saveHolder := some (sock, now.instant) } : DocSession).appendOps now.ms p m.changes) now p m
  rw [hreleased]
  refine ⟨_, _, _, rfl, rfl, ?_, ?_, ?_, ?_⟩
  · split
    · rfl
    · rfl
  · split
    · rfl
    · rfl
  · split
    · rfl
    · rfl
  · intro k hk
    have hget : ((s.participants.update fun _ p => { p with deliveredIndex := s.changeIndex + m.changes.length }).get? k).isSome := by
      split at hk
      · exact hk
      · exact hk
    rw [get?_update, isSome_map] at hget
    exact hget

theorem saveChanges_cases (s : DocSession) (now : Clock) (sock : Nat) (m : SaveMsg)
    (hnothing : TakesNothing m s.changeIndex) :
    (∃ p replies f s', s.saveChanges now sock m = (.ok (replies, some f), s') ∧
      edits f = DocSession.records now.ms p s.changeIndex m.changes ∧
      s'.ops = s.ops ++ DocSession.records now.ms p s.changeIndex m.changes ∧ s'.baseIndex = s.baseIndex ∧
      s'.changeIndex = s.changeIndex + m.changes.length ∧
      ∀ k, (s'.participants.get? k).isSome → (s.participants.get? k).isSome) ∨
      ((∀ replies f, (s.saveChanges now sock m).1 ≠ .ok (replies, some f)) ∧ Quiet s (s.saveChanges now sock m).2) := by
  unfold DocSession.saveChanges
  dsimp only
  split
  · exact .inr ⟨fun _ _ h => (by cases h), Quiet.touch⟩
  rename_i p hp
  split
  · exact .inr ⟨fun _ _ h => (by cases h), Quiet.touch⟩
  split
  · exact .inr ⟨fun _ _ h => (by cases h), Quiet.touch⟩
  split
  · exact .inr ⟨fun _ _ h => (by cases h), Quiet.touch⟩
  · left
    obtain ⟨replies, f, s', hflush, hafter⟩ := flush_edits (s.touch now) now sock p m hnothing
    rw [hflush]
    exact ⟨p, replies, f, s', rfl, hafter⟩

theorem length_records (time : Int) (p : Participant) (start : Int) (changes : List Text) :
    (DocSession.records time p start changes).length = changes.length := by
  induction changes generalizing start with
  | nil => rfl
  | cons change rest ih =>
    show (DocSession.records time p (start + 1) rest).length + 1 = rest.length + 1
    rw [ih]

theorem idx_records (time : Int) (p : Participant) (start : Int) (changes : List Text) (i : Nat)
    (h : i < (DocSession.records time p start changes).length) :
    ((DocSession.records time p start changes)[i]).idx = start + i + 1 := by
  induction changes generalizing start i with
  | nil => exact absurd h (Nat.not_lt_zero i)
  | cons change rest ih =>
    cases i with
    | zero =>
      show start + 1 = start + 0 + 1
      omega
    | succ i =>
      have hrest := ih (start + 1) i (Nat.lt_of_succ_lt_succ h)
      simp only [DocSession.records, getElem_cons_succ]
      omega

end Log

/-- How much an upload claims to hold, as far as its saver was sent it. -/
theorem Landing.bound_eq (e : Landing) (delivered : Int) :
    ((e.coverage.map fun c => min c delivered).getD delivered) = if e.reported then min e.index delivered else delivered := by
  unfold Landing.coverage
  split
  · rfl
  · rfl

/-! ### What keeps everybody's document live -/

namespace World

/-- No upload waits for its `bundle_refreshed`, except of documents the log does not reach back to. -/
def Settled (w : World) : Prop := ∀ e ∈ w.landing, e.index ≤ w.session.baseIndex

/-- A rename does not fall behind the log, comes when no other upload is half done, and moves `Editor.bin` only by a
saver who may compact and while no one is between its `auth` and its reading. -/
def Fits (w : World) (saver : Option Text) (doc : List OpRecord) : Prop :=
  w.Settled ∧ w.session.baseIndex ≤ reach doc ∧
    (reach doc = w.session.baseIndex ∨
      saver ≠ none ∧ ∀ sock c, w.clients.get? sock = some c → w.present sock = true → c.opened ≠ none)

/-- The `bundle_refreshed` of an upload moves the base to where the upload reaches. -/
def Compacts (w : World) (now : Clock) (e : Landing) : Prop :=
  if e.index ≤ w.session.baseIndex then
    e.reported = true ∨ w.session.electedOtherUser now e.saver = true ∨ w.session.deliveredTo e.saver ≤ w.session.baseIndex
  else
    w.session.electedOtherUser now e.saver = false ∧ e.index ≤ w.session.deliveredTo e.saver ∧
      (e.reported = true ∨ w.session.deliveredTo e.saver = e.index)

/-- What a step must be like for joiners to get the live document. -/
def Meets (w : World) (now : Clock) : Action → Prop
  | .auth _ _ m _ => w.Settled ∧ (m.view = false ∨ w.session.replayFrom none = [])
  -- an editor sends its edits once it has those of the others
  | .saveChanges sock changes _ _ _ => changes = [] ∨ ∀ c, w.clients.get? sock = some c → c.owed = []
  | .install sock n _ => ∀ c doc, w.clients.get? sock = some c → c.state n = some doc →
      w.Fits (if c.write then some c.user else none) doc
  | .convert i => ∀ saver, w.converting[i]? = some saver → w.Fits saver []
  | .bundleRefreshed i => ∀ e, w.landing[i]? = some e → w.Compacts now e
  | _ => True

def MeetsAll : World → List (Clock × Action) → Prop
  | _, [] => True
  | w, (now, a) :: rest => w.Meets now a ∧ MeetsAll (w.step now a) rest

/-- `Editor.bin` holds the first `r` edits and the log those behind the first `b`. -/
structure InvAt (w : World) (b r : Nat) : Prop where
  numbered : Numbered OpRecord.idx w.accepted
  changeIndex : w.session.changeIndex = w.accepted.length
  baseIndex : w.session.baseIndex = b
  ops : w.session.ops = w.accepted.drop b
  bin : w.editorBin.getD [] = w.accepted.take r
  base_le : b ≤ r
  reach_le : r ≤ w.accepted.length
  landing : ∀ e ∈ w.landing, e.index ≤ b ∨ e.index = r
  ahead : r = b ∨ ∃ e ∈ w.landing, e.index = r
  sockets : ∀ sock c, w.clients.get? sock = some c → sock < w.sockSeq
  readers : ∀ sock c doc, w.clients.get? sock = some c → c.opened = some doc →
    doc ++ (c.replay ++ c.since) ++ c.owed.flatMap edits = w.accepted
  joiners : ∀ sock c, w.clients.get? sock = some c → c.opened = none → w.present sock = true →
    r = b ∧ c.replay ++ c.since ++ c.owed.flatMap edits = w.accepted.drop b

variable {w : World} {b r : Nat} {now : Clock}

theorem InvAt.start (now : Clock) (driveId path : Text) (converted : Bool) :
    (World.start now driveId path converted).InvAt 0 0 where
  numbered := Numbered.nil
  changeIndex := rfl
  baseIndex := rfl
  ops := rfl
  bin := by
    cases converted with
    | false | true => rfl
  base_le := Nat.le_refl 0
  reach_le := Nat.le_refl 0
  landing := fun e he => (nomatch he)
  ahead := .inl rfl
  sockets := fun sock c hc => (nomatch hc)
  readers := fun sock c doc hc => (nomatch hc)
  joiners := fun sock c hc => (nomatch hc)

section

variable (h : w.InvAt b r)
include h

theorem InvAt.quiet {s' : DocSession} (hq : Quiet w.session s') : InvAt { w with session := s' } b r where
  numbered := h.numbered
  changeIndex := hq.changeIndex.trans h.changeIndex
  baseIndex := hq.baseIndex.trans h.baseIndex
  ops := hq.ops.trans h.ops
  bin := h.bin
  base_le := h.base_le
  reach_le := h.reach_le
  landing := h.landing
  ahead := h.ahead
  sockets := h.sockets
  readers := h.readers
  joiners := fun sock c hget hopened hpresent => h.joiners sock c hget hopened (hq.present sock hpresent)

/-- With no upload half done, the log begins where `Editor.bin` ends. -/
theorem InvAt.reach_eq (hsettled : w.Settled) : r = b := by
  rcases h.ahead with heq | ⟨e, he, hindex⟩
  · exact heq
  · have hle := hsettled e he
    have hb := h.base_le
    rw [h.baseIndex] at hle
    omega

theorem InvAt.replay : w.session.replayFrom none = w.accepted.drop b := by
  unfold DocSession.replayFrom
  rw [getD_none, max_self, h.baseIndex, h.ops]
  exact h.numbered.filter_drop (Nat.le_refl b)

theorem InvAt.auth {user username : Text} {m : AuthMsg} {canWrite : Bool}
    (hmeets : w.Meets now (.auth user username m canWrite)) : (w.auth now user username m canWrite).InvAt b r := by
  unfold World.auth
  split
  · exact h
  rename_i hfresh
  rw [Bool.not_eq_true] at hfresh
  rcases auth_fresh (s := w.session) hfresh with ⟨e, hauth⟩ | ⟨joined, s', hauth, hreplay, hops, hbase, hchange, hparts⟩
  · rw [hauth]
    have hq : InvAt { w with session := w.session.touch now } b r := h.quiet Quiet.touch
    exact { hq with sockets := fun sock c hget => Nat.lt_succ_of_lt (h.sockets sock c hget) }
  rw [hauth]
  obtain ⟨hsettled, hview⟩ := hmeets
  refine ⟨h.numbered, hchange.trans h.changeIndex, hbase.trans h.baseIndex, hops.trans h.ops, h.bin, h.base_le,
    h.reach_le, h.landing, h.ahead, ?_, ?_, ?_⟩
  · intro sock c hget
    rw [get?_put] at hget
    split at hget
    · rename_i hsock
      rw [hsock]
      exact Nat.lt_succ_self _
    · exact Nat.lt_succ_of_lt (h.sockets sock c hget)
  · intro sock c doc hget hopened
    rcases get?_put_some.mp hget with ⟨-, rfl⟩ | ⟨-, hget⟩
    · cases hopened
    · exact h.readers sock c doc hget hopened
  · intro sock c hget hopened hpresent
    rcases get?_put_some.mp hget with ⟨-, rfl⟩ | ⟨hne, hget⟩
    · refine ⟨h.reach_eq hsettled, ?_⟩
      show joined.replies.flatMap edits ++ [] ++ [] = w.accepted.drop b
      rw [append_nil, append_nil, hreplay, ← h.replay]
      split
      · rename_i hm
        rcases hview with hedit | hnone
        · rw [hedit] at hm
          cases hm
        · exact hnone.symm
      · rfl
    · rcases hparts sock hpresent with heq | hbefore
      · exact absurd heq hne
      · exact h.joiners sock c hget hopened hbefore

/-- One client's document changes. -/
theorem InvAt.put {sock : Nat} {c c' : Client} (hget : w.clients.get? sock = some c)
    (hreader : ∀ doc, c'.opened = some doc → doc ++ (c'.replay ++ c'.since) ++ c'.owed.flatMap edits = w.accepted)
    (hjoiner : c'.opened = none → w.present sock = true →
      r = b ∧ c'.replay ++ c'.since ++ c'.owed.flatMap edits = w.accepted.drop b) :
    InvAt { w with clients := w.clients.put sock c' } b r := by
  refine { h with sockets := ?_, readers := ?_, joiners := ?_ }
  · intro k d hk
    rw [get?_put] at hk
    split at hk
    · rename_i hsock
      rw [hsock]
      exact h.sockets sock c hget
    · exact h.sockets k d hk
  · intro k d doc hk hopened
    rcases get?_put_some.mp hk with ⟨-, rfl⟩ | ⟨-, hk⟩
    · exact hreader doc hopened
    · exact h.readers k d doc hk hopened
  · intro k d hk hopened hpresent
    rcases get?_put_some.mp hk with ⟨hsock, rfl⟩ | ⟨-, hk⟩
    · rw [hsock] at hpresent
      exact hjoiner hopened hpresent
    · exact h.joiners k d hk hopened hpresent

theorem InvAt.read (sock : Nat) : (w.read sock).InvAt b r := by
  unfold World.read
  split
  · rename_i c doc hget hbin
    split
    · rename_i hcond
      obtain ⟨hreach, hdrop⟩ := h.joiners sock c hget hcond.2 hcond.1
      apply h.put hget
      · intro doc' hdoc
        obtain rfl := some.inj hdoc
        have htake : doc = w.accepted.take b := by
          have hread := h.bin
          rw [hbin, hreach] at hread
          exact hread
        rw [htake, append_assoc, hdrop, take_append_drop]
      · intro hnone
        cases hnone
    · exact h
  · exact h

theorem InvAt.deliver (sock : Nat) : (w.deliver sock).InvAt b r := by
  unfold World.deliver
  split
  · exact h
  rename_i c hget
  split
  · exact h
  rename_i f rest howed
  split
  · have hmoved : ∀ before : List OpRecord, before ++ (c.replay ++ (c.since ++ edits f)) ++ rest.flatMap edits =
        before ++ (c.replay ++ c.since) ++ c.owed.flatMap edits := by
      intro before
      rw [howed, flatMap_cons]
      simp only [append_assoc]
    apply h.put hget
    · intro doc hopened
      exact (hmoved doc).trans (h.readers sock c doc hget hopened)
    · intro hopened hpresent
      obtain ⟨hreach, hdrop⟩ := h.joiners sock c hget hopened hpresent
      exact ⟨hreach, (hmoved []).trans hdrop⟩
  · exact h

theorem InvAt.saveChanges {sock : Nat} {changes : List Text} {start stop release : Bool}
    (hmeets : w.Meets now (.saveChanges sock changes start stop release)) :
    (w.saveChanges now sock changes start stop release).InvAt b r := by
  unfold World.saveChanges
  dsimp only
  rcases saveChanges_cases w.session now sock ⟨changes, none, start, stop, release⟩ (takesNothing_of_none rfl _) with
    ⟨p, replies, f, s', hsave, hedits, hops, hbase, hchange, hparts⟩ | ⟨hrefused, hq⟩
  · rw [hsave]
    have hlen : (edits f).length = changes.length := by
      rw [hedits]
      exact length_records _ _ _ _
    -- who saves has received everything, or says nothing
    have hauthor : ∀ c, w.clients.get? sock = some c → c.owed.flatMap edits ++ edits f = edits f ++ c.owed.flatMap edits := by
      intro c hget
      rcases hmeets with hnone | howed
      · have hnil : edits f = [] := by
          apply eq_nil_of_length_eq_zero
          rw [hlen, hnone]
          rfl
        rw [hnil, append_nil, nil_append]
      · rw [howed c hget]
        exact (append_nil _).symm
    have hgrown : ∀ k c c', w.clients.get? k = some c →
        (if k = sock then c.take (edits f) else { c with owed := c.owed ++ [f] }) = c' →
        c'.opened = c.opened ∧ ∀ before : List OpRecord, before ++ (c'.replay ++ c'.since) ++ c'.owed.flatMap edits =
          before ++ (c.replay ++ c.since) ++ c.owed.flatMap edits ++ edits f := by
      intro k c c' hget hc'
      split at hc'
      · rename_i hk
        obtain rfl := hc'
        refine ⟨rfl, ?_⟩
        intro before
        show before ++ (c.replay ++ (c.since ++ edits f)) ++ c.owed.flatMap edits = _
        rw [hk] at hget
        simp only [append_assoc]
        rw [← hauthor c hget]
      · obtain rfl := hc'
        refine ⟨rfl, ?_⟩
        intro before
        rw [flatMap_append, flatMap_singleton]
        simp only [append_assoc]
    have hbase_le : b ≤ w.accepted.length := Nat.le_trans h.base_le h.reach_le
    refine ⟨?_, ?_, hbase.trans h.baseIndex, ?_, ?_, h.base_le, ?_, h.landing, h.ahead, ?_, ?_, ?_⟩
    · apply h.numbered.append
      intro i hi
      have hrec : i < (DocSession.records now.ms p w.session.changeIndex changes).length := by
        rw [hedits] at hi
        exact hi
      rw [← h.changeIndex]
      simp only [hedits]
      exact idx_records now.ms p w.session.changeIndex changes i hrec
    · rw [hchange, h.changeIndex, length_append, hlen]
      rfl
    · rw [hops, h.ops, ← hedits, drop_append_of_le_length hbase_le]
    · rw [take_append_of_le_length h.reach_le]
      exact h.bin
    · rw [length_append]
      exact Nat.le_trans h.reach_le (Nat.le_add_right _ _)
    · intro k c' hget
      obtain ⟨c, hc, -⟩ := get?_update_some.mp hget
      exact h.sockets k c hc
    · intro k c' doc hget hopened
      obtain ⟨c, hc, hc'⟩ := get?_update_some.mp hget
      obtain ⟨hsame, hmore⟩ := hgrown k c c' hc hc'
      rw [hmore doc, h.readers k c doc hc (hsame.symm.trans hopened)]
    · intro k c' hget hopened hpresent
      obtain ⟨c, hc, hc'⟩ := get?_update_some.mp hget
      obtain ⟨hsame, hmore⟩ := hgrown k c c' hc hc'
      obtain ⟨hreach, hdrop⟩ := h.joiners k c hc (hsame.symm.trans hopened) (hparts k hpresent)
      refine ⟨hreach, ?_⟩
      have hall := hmore []
      rw [nil_append, nil_append] at hall
      rw [hall, hdrop, drop_append_of_le_length hbase_le]
  · split
    · rename_i replies f heq
      exact absurd heq (hrefused replies f)
    · exact h.quiet hq

/-- A rename puts in place a beginning of what was accepted. -/
theorem InvAt.rename {saver : Option Text} {doc tail : List OpRecord} (reported : Bool)
    (hdoc : doc ++ tail = w.accepted) (hfits : w.Fits saver doc) :
    (w.rename saver doc reported).InvAt b doc.length := by
  obtain ⟨hsettled, hbehind, hmoves⟩ := hfits
  have hreach : reach doc = doc.length := by
    have hnumbered : Numbered OpRecord.idx (doc ++ tail) := by
      rw [hdoc]
      exact h.numbered
    exact hnumbered.last_of_append
  have hr : r = b := h.reach_eq hsettled
  rw [h.baseIndex] at hbehind
  refine { h with bin := ?_, base_le := ?_, reach_le := ?_, landing := ?_, ahead := ?_, joiners := ?_ }
  · show doc = w.accepted.take doc.length
    rw [← hdoc]
    exact take_left.symm
  · omega
  · show doc.length ≤ w.accepted.length
    rw [← hdoc, length_append]
    exact Nat.le_add_right _ _
  · intro e he
    rcases mem_append.mp he with hold | hnew
    · left
      have hle := hsettled e hold
      rw [h.baseIndex] at hle
      exact hle
    · right
      obtain ⟨user, -, rfl⟩ := map_eq_some_iff.mp (mem_toList.mp hnew)
      exact hreach
  · rcases hmoves with hstays | ⟨hsaver, -⟩
    · left
      rw [h.baseIndex] at hstays
      omega
    · right
      obtain ⟨user, rfl⟩ := ne_none_iff_exists'.mp hsaver
      refine ⟨⟨user, reach doc, reported⟩, ?_, hreach⟩
      exact mem_append_right _ (mem_singleton.mpr rfl)
  · intro sock c hget hopened hpresent
    rcases hmoves with hstays | ⟨-, hread⟩
    · rw [h.baseIndex] at hstays
      obtain ⟨-, hdrop⟩ := h.joiners sock c hget hopened hpresent
      refine ⟨?_, hdrop⟩
      omega
    · exact absurd hopened (hread sock c hget hpresent)

theorem InvAt.install {sock n : Nat} {reported : Bool} (hmeets : w.Meets now (.install sock n reported)) :
    ∃ r', (w.install sock n reported).InvAt b r' := by
  unfold World.install
  split
  · exact ⟨r, h⟩
  rename_i c hget
  split
  · exact ⟨r, h⟩
  rename_i doc hdoc
  obtain ⟨opened, hopened, hstate⟩ := map_eq_some_iff.mp hdoc
  have hreader := h.readers sock c opened hget hopened
  have hprefix : doc ++ ((c.replay ++ c.since).drop n ++ c.owed.flatMap edits) = w.accepted := by
    rw [← hstate, ← hreader, append_assoc, append_assoc, ← append_assoc (take n _), take_append_drop]
  exact ⟨doc.length, h.rename reported hprefix (hmeets c doc hget hdoc)⟩

theorem InvAt.convert {i : Nat} (hmeets : w.Meets now (.convert i)) : ∃ r', (w.convert i).InvAt b r' := by
  unfold World.convert
  split
  · exact ⟨r, h⟩
  · rename_i saver hsaver
    have hrename : (w.rename saver [] false).InvAt b 0 := h.rename false (nil_append _) (hmeets saver hsaver)
    exact ⟨0, { hrename with }⟩

end

/-- What `bundle_refreshed` does to the log. -/
theorem bundleRefreshed_cases (s : DocSession) (now : Clock) (user : Text) (coverage : Option Int) :
    s.electedOtherUser now user = true ∧ s.bundleRefreshed now user coverage = s ∨
      s.electedOtherUser now user = false ∧
        ∃ keepFrom, keepFrom = max s.baseIndex (min ((coverage.map fun c => min c (s.deliveredTo user)).getD (s.deliveredTo user)) s.changeIndex) ∧
          (s.bundleRefreshed now user coverage).ops = (s.ops.filter fun op => keepFrom < op.idx) ∧
          (s.bundleRefreshed now user coverage).baseIndex = keepFrom ∧
          (s.bundleRefreshed now user coverage).changeIndex = s.changeIndex ∧
          (s.bundleRefreshed now user coverage).participants = s.participants := by
  unfold DocSession.bundleRefreshed
  split
  · rename_i helected
    exact .inl ⟨helected, rfl⟩
  rename_i hfree
  right
  refine ⟨Bool.not_eq_true _ ▸ hfree, _, rfl, ?_, ?_, rfl, rfl⟩
  · cases coverage with
    | none | some c => rfl
  · cases coverage with
    | none | some c => rfl

theorem mem_eraseIdx_of_ne {l : List Landing} {i : Nat} {e e' : Landing} (he : l[i]? = some e) (hmem : e' ∈ l)
    (hne : e' ≠ e) : e' ∈ l.eraseIdx i := by
  obtain ⟨j, hj⟩ := mem_iff_getElem?.mp hmem
  refine mem_eraseIdx_iff_getElem?.mpr ⟨j, ?_, hj⟩
  rintro rfl
  exact hne (some.inj (hj.symm.trans he))

section

variable (h : w.InvAt b r)

include h

theorem InvAt.log_compacted {e : Landing} (he : e ∈ w.landing) (hcompacts : w.Compacts now e) :
    ∃ b' : Nat, (b' = b ∧ e.index ≤ b ∨ b' = r ∧ b < r) ∧
      (w.session.bundleRefreshed now e.saver e.coverage).ops = w.accepted.drop b' ∧
      (w.session.bundleRefreshed now e.saver e.coverage).baseIndex = b' ∧
      (w.session.bundleRefreshed now e.saver e.coverage).changeIndex = w.accepted.length ∧
      (w.session.bundleRefreshed now e.saver e.coverage).participants = w.session.participants := by
  have hreach_le := h.reach_le
  have hbase_le := h.base_le
  unfold Compacts at hcompacts
  rw [h.baseIndex] at hcompacts
  rcases bundleRefreshed_cases w.session now e.saver e.coverage with
    ⟨helected, hsame⟩ | ⟨hfree, keepFrom, hkeep, hops, hbase, hchange, hparts⟩
  · split at hcompacts
    · rename_i hle
      rw [hsame]
      exact ⟨b, .inl ⟨rfl, hle⟩, h.ops, h.baseIndex, h.changeIndex, rfl⟩
    · rw [helected] at hcompacts
      cases hcompacts.1
  · rw [h.baseIndex, h.changeIndex, e.bound_eq] at hkeep
    split at hcompacts
    · rename_i hle
      have hstays : keepFrom = b := by
        rcases hcompacts with hreported | helected | hdelivered
        · rw [if_pos hreported] at hkeep
          omega
        · rw [hfree] at helected
          cases helected
        · split at hkeep
          · omega
          · omega
      refine ⟨b, .inl ⟨rfl, hle⟩, ?_, hbase.trans hstays, hchange.trans h.changeIndex, hparts⟩
      rw [hops, hstays, h.ops]
      exact h.numbered.filter_drop (Nat.le_refl b)
    · rename_i hgt
      have hindex : e.index = r := (h.landing e he).resolve_left hgt
      obtain ⟨-, hdelivered, hreport⟩ := hcompacts
      have hmoves : keepFrom = r := by
        rcases hreport with hreported | hexact
        · rw [if_pos hreported] at hkeep
          omega
        · split at hkeep
          · omega
          · omega
      refine ⟨r, .inr ⟨rfl, by omega⟩, ?_, hbase.trans hmoves, hchange.trans h.changeIndex, hparts⟩
      rw [hops, hmoves, h.ops]
      exact h.numbered.filter_drop h.base_le

theorem InvAt.bundleRefreshed {i : Nat} (hmeets : w.Meets now (.bundleRefreshed i)) :
    ∃ b', (w.bundleRefreshed now i).InvAt b' r := by
  unfold World.bundleRefreshed
  split
  · exact ⟨b, h⟩
  rename_i e he
  obtain ⟨b', hcase, hops, hbase, hchange, hparts⟩ := h.log_compacted (mem_of_getElem? he) (hmeets e he)
  have hpresent : ∀ sock, ((w.session.bundleRefreshed now e.saver e.coverage).participants.get? sock).isSome = true →
      w.present sock = true := by
    intro sock hsock
    rw [hparts] at hsock
    exact hsock
  refine ⟨b', h.numbered, hchange, hbase, hops, h.bin, ?_, h.reach_le, ?_, ?_, h.sockets, h.readers, ?_⟩
  · have hle := h.base_le
    omega
  · intro e' he'
    have hold := h.landing e' (mem_of_mem_eraseIdx he')
    have hle := h.base_le
    omega
  · rcases hcase with ⟨rfl, hle⟩ | ⟨rfl, -⟩
    · rcases h.ahead with heq | ⟨e', he', hindex⟩
      · exact .inl heq
      by_cases hsame : e' = e
      · left
        rw [hsame] at hindex
        have hbase_le := h.base_le
        omega
      · exact .inr ⟨e', mem_eraseIdx_of_ne he he' hsame, hindex⟩
    · exact .inl rfl
  · intro sock c hget hopened hsock
    obtain ⟨hreach, hdrop⟩ := h.joiners sock c hget hopened (hpresent sock hsock)
    have hb : b' = b := by omega
    rw [hb]
    exact ⟨hreach, hdrop⟩

theorem InvAt.step (a : Action) (hmeets : w.Meets now a) : ∃ b' r', (w.step now a).InvAt b' r' := by
  cases a with
  | auth user username m canWrite => exact ⟨b, r, h.auth hmeets⟩
  | read sock => exact ⟨b, r, h.read sock⟩
  | saveChanges sock changes start stop release => exact ⟨b, r, h.saveChanges hmeets⟩
  | deliver sock => exact ⟨b, r, h.deliver sock⟩
  | install sock n reported => exact ⟨b, h.install hmeets⟩
  | ask saver =>
    refine ⟨b, r, ?_⟩
    show (w.ask saver).InvAt b r
    unfold World.ask
    split
    · exact { h with }
    · exact h
  | convert i => exact ⟨b, h.convert hmeets⟩
  | bundleRefreshed i =>
    obtain ⟨b', hb'⟩ := h.bundleRefreshed hmeets
    exact ⟨b', r, hb'⟩
  | lunaSaveLock sock => exact ⟨b, r, h.quiet (Quiet.lunaSaveLock w.session now sock)⟩
  | lunaSaveEnd sock => exact ⟨b, r, h.quiet (Quiet.lunaSaveEnd w.session sock)⟩
  | disconnect sock => exact ⟨b, r, h.quiet (Quiet.disconnect w.session now sock)⟩

theorem InvAt.run (steps : List (Clock × Action)) (hmeets : MeetsAll w steps) :
    ∃ b' r', (World.run steps w).InvAt b' r' := by
  induction steps generalizing w b r with
  | nil => exact ⟨b, r, h⟩
  | cons head rest ih =>
    obtain ⟨now, a⟩ := head
    obtain ⟨b', r', hstep⟩ := h.step a hmeets.1
    exact ih hstep hmeets.2

end

/-- Whoever joined, read `Editor.bin` and got every broadcast since has the accepted edits, each once and in order. -/
theorem joiner_has_live_document (now : Clock) (driveId path : Text) (converted : Bool) (steps : List (Clock × Action))
    (hmeets : MeetsAll (start now driveId path converted) steps) (sock : Nat) (c : Client) (doc : List OpRecord)
    (hget : (run steps (start now driveId path converted)).clients.get? sock = some c) (hdoc : c.document = some doc)
    (howed : c.owed = []) : doc = (run steps (start now driveId path converted)).accepted := by
  obtain ⟨b, r, h⟩ := (InvAt.start now driveId path converted).run steps hmeets
  obtain ⟨opened, hopened, rfl⟩ := map_eq_some_iff.mp hdoc
  have hreader := h.readers sock c opened hget hopened
  rw [howed, flatMap_nil, append_nil] at hreader
  exact hreader

private def fresh : AuthMsg := ⟨none, [], .absent, none, none, none, none, none, false⟩

private def uploadBeforeJoin : List (Clock × Action) :=
  [(⟨0, 0⟩, .auth ['a'] [] fresh true), (⟨0, 0⟩, .read 1), (⟨0, 0⟩, .saveChanges 1 [['x']] true true false),
    (⟨0, 0⟩, .install 1 1 true), (⟨0, 0⟩, .bundleRefreshed 0), (⟨0, 0⟩, .auth ['b'] [] fresh true), (⟨0, 0⟩, .read 2),
    (⟨0, 0⟩, .saveChanges 1 [['y']] true true false), (⟨0, 0⟩, .deliver 2)]

private def uploadWhileJoining : List (Clock × Action) :=
  [(⟨0, 0⟩, .auth ['a'] [] fresh true), (⟨0, 0⟩, .read 1), (⟨0, 0⟩, .saveChanges 1 [['x']] true true false),
    (⟨0, 0⟩, .auth ['b'] [] fresh true), (⟨0, 0⟩, .install 1 1 true), (⟨0, 0⟩, .bundleRefreshed 0), (⟨0, 0⟩, .read 2)]

theorem joiner_has_live_document_of_two : MeetsAll (start ⟨0, 0⟩ [] [] true) uploadBeforeJoin ∧
      ∃ c doc, (run uploadBeforeJoin (start ⟨0, 0⟩ [] [] true)).clients.get? 2 = some c ∧ c.document = some doc ∧
        doc.map OpRecord.change = [['x'], ['y']] ∧ doc = (run uploadBeforeJoin (start ⟨0, 0⟩ [] [] true)).accepted := by
  have hmeets : MeetsAll (start ⟨0, 0⟩ [] [] true) uploadBeforeJoin := by
    refine ⟨⟨fun e he => (nomatch he), .inl rfl⟩, trivial, .inr fun c hc => ?_, fun c doc hc hdoc => ?_,
      fun e he => ?_, ⟨fun e he => (nomatch he), .inl rfl⟩, trivial, .inr fun c hc => ?_, trivial, trivial⟩
    · cases hc
      rfl
    · cases hc
      cases hdoc
      refine ⟨fun e he => (nomatch he), by decide, .inr ⟨nofun, ?_⟩⟩
      intro sock c hc hpresent
      cases mem_rows.mpr hc with
      | head => nofun
      | tail _ hrest => cases hrest
    · cases he
      show if _ then _ else _
      decide
    · cases hc
      rfl
  refine ⟨hmeets, _, _, rfl, rfl, by decide +kernel, ?_⟩
  exact joiner_has_live_document _ _ _ _ _ hmeets 2 _ _ rfl rfl rfl

/-- Who reads `Editor.bin` after an upload that came behind its `auth` has the edits twice. -/
theorem joiner_applies_edit_twice :
    ¬ ∀ (now : Clock) (driveId path : Text) (converted : Bool) (steps : List (Clock × Action)) (sock : Nat) (c : Client)
        (doc : List OpRecord), (run steps (start now driveId path converted)).clients.get? sock = some c →
        c.document = some doc → c.owed = [] → doc = (run steps (start now driveId path converted)).accepted := by
  intro h
  have hdoc := h ⟨0, 0⟩ [] [] true uploadWhileJoining 2 _ _ rfl rfl rfl
  have hlen := congrArg length hdoc
  revert hlen
  decide +kernel

end World

end LibreServ.Bundle
