import LibreServ.Collab

/-! Sockets of one room, from `api/collab.rs`. A session passes on what its client sends, one message after the other,
and sends the client its welcome and then what the room sends, without the client's own messages. Answers of the hub
travel by themselves. What was not passed on when the session ends is lost. -/

namespace LibreServ.Collab

open List Option Table
open Files (Text)

variable {J : Type}

/-- `should_skip_echo`. -/
def shouldSkipEcho (peerId : Nat) : ServerEvent J → Bool
  | .peerJoin peer => peer.peerId = peerId
  | .op o => o.peerId = peerId
  | .presence src _ => src = peerId
  | .saved src _ _ => src = peerId
  | _ => false

/-- The edits among events. -/
def opsOf (events : List (ServerEvent J)) : List (Op J) :=
  events.filterMap fun e => match e with
    | .op o => some o
    | _ => none

/-- What a client gets from the room. -/
inductive Frame (J : Type) where
  | welcome (w : Welcome J)
  | event (e : ServerEvent J)

/-- The session of one peer: what its client sent, the hub's answers, and how much the client has heard. -/
structure Socket (J : Type) where
  up : List (ClientMsg J)
  answers : List (ServerEvent J)
  heard : Nat

structure Wire (J : Type) where
  room : Option (Room J)
  peerSeq : Nat
  sockets : Table Nat (Socket J)

/-- All that a peer is sent. -/
def Receiver.frames (rc : Receiver J) (peerId : Nat) : List (Frame J) :=
  .welcome rc.welcome :: (rc.received.filter fun e => !shouldSkipEcho peerId e).map .event

namespace Wire

variable (w : Wire J)

def empty : Wire J := ⟨none, 1, Table.empty⟩

/-- What a peer has still to hear. -/
def ahead (p : Nat) : List (Frame J) :=
  match w.room, w.sockets.get? p with
  | some room, some s => ((room.receivers.get? p).map fun rc => (rc.frames p).drop s.heard).getD []
  | _, _ => []

/-- A client connects, and gets the number of its session. -/
def join (now : Nat) (userId username : Text) (canWrite : Bool) : Option Nat × Wire J :=
  let room := w.room.getD (Room.fresh now)
  if maxPeersPerRoom ≤ room.peers.rows.length then (none, w)
  else
    (some w.peerSeq, {
      room := some (room.join now w.peerSeq userId username canWrite).2
      peerSeq := w.peerSeq + 1
      sockets := w.sockets.put w.peerSeq ⟨[], [], 0⟩ })

/-- What a client sends goes nowhere if its session is over. -/
def say (p : Nat) (msgs : List (ClientMsg J)) : Wire J :=
  { w with sockets := w.sockets.update fun p' s => if p' = p then { s with up := s.up ++ msgs } else s }

/-- The session passes one message on. -/
def serve (bytes : J → Nat) (now p : Nat) (canWrite : Bool) : Wire J :=
  match w.room, w.sockets.get? p with
  | some room, some ⟨msg :: rest, answers, heard⟩ =>
    let handled := room.handle bytes now p canWrite msg
    { w with
      room := some handled.2
      sockets := w.sockets.put p ⟨rest, answers ++ handled.1.toList, heard⟩ }
  | _, _ => w

/-- The client hears the next frame. -/
def hear (p : Nat) : Wire J :=
  { w with sockets := w.sockets.update fun p' s => if p' = p then { s with heard := s.heard + 1 } else s }

/-- The client takes an answer. -/
def takeAnswer (p : Nat) : Wire J :=
  { w with sockets := w.sockets.update fun p' s => if p' = p then { s with answers := s.answers.drop 1 } else s }

/-- The session ends. -/
def leave (now p : Nat) : Wire J :=
  { w with room := w.room.map fun room => room.leave now p, sockets := w.sockets.erase p }

/-- The file was written, with everything up to the coverage in it. -/
def fileLanded (now : Nat) (userId : Text) (coverage : Option Nat) : Wire J :=
  { w with room := w.room.map fun room => room.fileLanded now userId coverage }

def evictIdle (now : Nat) : Wire J :=
  { w with room := w.room.filter fun room => !(room.peers.rows = [] && idleEmpty < now - room.lastEvent) }

end Wire

/-! ### What is under way -/

/-- What may be sent to the hub, kept by it for those who join, and sent by it. -/
structure Traffic (J : Type) where
  up : ClientMsg J → Prop
  log : ServerEvent J → Prop
  down : ServerEvent J → Prop

def Frame.Fits (t : Traffic J) : Frame J → Prop
  | .welcome w => ∀ e ∈ w.catchup, t.log e
  | .event e => t.down e

/-- What the hub makes of the messages it gets fits. -/
structure Traffic.Relays (t : Traffic J) : Prop where
  peerJoin : ∀ peer, t.down (.peerJoin peer)
  peerLeave : ∀ p, t.down (.peerLeave p)
  presence : ∀ p cursor, t.up (.presence cursor) → t.down (.presence p cursor)
  op : ∀ o : Op J, t.up (.op o.payload) → t.down (.op o) ∧ t.log (.op o)
  saved : ∀ p size seq, t.down (.saved p size seq)

/-- Everything under way fits, on its way to the hub and from there to those who listen. -/
structure Wire.Carries (t : Traffic J) (listens : Nat → Prop) (w : Wire J) : Prop where
  up : ∀ p s, w.sockets.get? p = some s → ∀ m ∈ s.up, t.up m
  log : ∀ room, w.room = some room → ∀ e ∈ room.backlog, t.log e
  ahead : ∀ p, listens p → ∀ f ∈ w.ahead p, f.Fits t

/-! ### What a room sends -/

/-- The message `msg` of peer `p` turns into the event `e`. -/
def Stems (p : Nat) : ClientMsg J → ServerEvent J → Prop
  | .presence cursor, e => e = .presence p cursor
  | .op payload, e => ∃ n, e = .op ⟨n, p, payload⟩
  | .saved size seq, e => e = .saved p size seq
  | _, _ => False

theorem Traffic.Relays.stems {t : Traffic J} (h : t.Relays) {p : Nat} {msg : ClientMsg J} {e : ServerEvent J}
    (hmsg : t.up msg) (hstems : Stems p msg e) : t.down e := by
  cases msg with
  | presence cursor =>
    rw [show e = .presence p cursor from hstems]
    exact h.presence p cursor hmsg
  | op payload =>
    obtain ⟨n, rfl⟩ := hstems
    exact (h.op _ hmsg).1
  | saved size seq =>
    rw [show e = .saved p size seq from hstems]
    exact h.saved p size seq
  | hello clientId displayName | saveLock | saveEnd | ping => exact hstems.elim

namespace Room

variable {room room' : Room J} {es : List (ServerEvent J)}

/-- Every receiver gets the events `es` more. -/
def Sends (room room' : Room J) (es : List (ServerEvent J)) : Prop :=
  ∀ p, room'.receivers.get? p = (room.receivers.get? p).map fun rc => ⟨rc.welcome, rc.received ++ es⟩

theorem Sends.of_same (h : room'.receivers = room.receivers) : room.Sends room' [] := by
  intro p
  rw [h]
  cases room.receivers.get? p with
  | none => rfl
  | some rc => simp

theorem sends_send (room : Room J) (e : ServerEvent J) : room.Sends (room.send e) [e] := by
  intro p
  rw [send, get?_update]

theorem backlog_send (room : Room J) (e : ServerEvent J) : (room.send e).backlog = room.backlog := rfl

theorem Sends.send_of_same (h : room'.receivers = room.receivers) (e : ServerEvent J) : room.Sends (room'.send e) [e] := by
  intro p
  rw [sends_send room' e p, h]

theorem receivers_releaseHolderPeer (room : Room J) (p : Nat) : (room.releaseHolderPeer p).receivers = room.receivers := by
  unfold releaseHolderPeer
  split
  · rfl
  · rfl

theorem backlog_releaseHolderPeer (room : Room J) (p : Nat) : (room.releaseHolderPeer p).backlog = room.backlog := by
  unfold releaseHolderPeer
  split
  · rfl
  · rfl

theorem sends_leave (room : Room J) (now p : Nat) : room.Sends (room.leave now p) [.peerLeave p] := by
  apply Sends.send_of_same
  exact receivers_releaseHolderPeer _ p

theorem backlog_leave (room : Room J) (now p : Nat) : (room.leave now p).backlog = room.backlog :=
  backlog_releaseHolderPeer _ p

theorem mem_pushBacklog {backlog : List (ServerEvent J)} {e e' : ServerEvent J} (h : e' ∈ pushBacklog backlog e) :
    e' ∈ backlog ∨ e' = e := by
  have hmem := mem_of_mem_drop h
  rw [mem_append, mem_singleton] at hmem
  exact hmem

/-- A message makes at most the event that stems from it, and only edits come into the backlog. -/
theorem handle_sends (room : Room J) (bytes : J → Nat) (now p : Nat) (canWrite : Bool) (msg : ClientMsg J) :
    ∃ es, room.Sends (room.handle bytes now p canWrite msg).2 es ∧ (∀ e ∈ es, Stems p msg e) ∧
      ∀ e ∈ (room.handle bytes now p canWrite msg).2.backlog,
        e ∈ room.backlog ∨ ∃ n payload, msg = .op payload ∧ e = .op ⟨n, p, payload⟩ := by
  have hnothing : ∀ room' : Room J, room'.receivers = room.receivers → room'.backlog = room.backlog →
      ∃ es, room.Sends room' es ∧ (∀ e ∈ es, Stems p msg e) ∧
        ∀ e ∈ room'.backlog, e ∈ room.backlog ∨ ∃ n payload, msg = .op payload ∧ e = .op ⟨n, p, payload⟩ := by
    intro room' hreceivers hbacklog
    refine ⟨[], Sends.of_same hreceivers, fun e he => (nomatch he), fun e he => ?_⟩
    rw [hbacklog] at he
    exact .inl he
  cases msg with
  | hello clientId displayName | ping => exact hnothing _ rfl rfl
  | saveEnd => exact hnothing _ (receivers_releaseHolderPeer _ p) (backlog_releaseHolderPeer _ p)
  | saveLock =>
    simp only [handle, grantSaveLock]
    split
    · exact hnothing _ rfl rfl
    · split
      · exact hnothing _ rfl rfl
      · exact hnothing _ rfl rfl
  | presence cursor =>
    refine ⟨[.presence p cursor], Sends.send_of_same rfl _, ?_, fun e he => .inl he⟩
    intro e he
    exact mem_singleton.mp he
  | op payload =>
    simp only [handle]
    split
    · exact hnothing _ rfl rfl
    split
    · exact hnothing _ rfl rfl
    refine ⟨[.op ⟨room.seq + 1, p, payload⟩], Sends.send_of_same rfl _, ?_, ?_⟩
    · intro e he
      exact ⟨room.seq + 1, mem_singleton.mp he⟩
    · intro e he
      simp only [backlog_send] at he
      rcases mem_pushBacklog he with hold | hnew
      · exact .inl hold
      · exact .inr ⟨room.seq + 1, payload, rfl, hnew⟩
  | saved size seq =>
    simp only [handle]
    split
    · exact hnothing _ rfl rfl
    refine ⟨[.saved p size seq], ?_, ?_, ?_⟩
    · apply Sends.send_of_same
      rw [receivers_releaseHolderPeer]
      cases seq with
      | none | some n => rfl
    · intro e he
      exact mem_singleton.mp he
    · intro e he
      left
      cases seq with
      | none =>
        have he' : e ∈ (({ room with lastEvent := now } : Room J).releaseHolderPeer p).backlog := he
        rw [backlog_releaseHolderPeer] at he'
        exact he'
      | some n =>
        have he' : e ∈ ((({ room with lastEvent := now } : Room J).compactBacklog n).releaseHolderPeer p).backlog := he
        rw [backlog_releaseHolderPeer] at he'
        exact mem_of_mem_filter he'

end Room

namespace Wire

variable {w w' : Wire J} {room room' : Room J} {es : List (ServerEvent J)} {p : Nat} {f : Frame J}

theorem ahead_eq {s : Socket J} (hroom : w.room = some room) (hsocket : w.sockets.get? p = some s) :
    w.ahead p = ((room.receivers.get? p).map fun rc => (rc.frames p).drop s.heard).getD [] := by
  rw [ahead, hroom, hsocket]

theorem ahead_of_no_socket (h : w.sockets.get? p = none) : w.ahead p = [] := by
  rw [ahead, h]
  cases w.room with
  | none | some room => rfl

theorem ahead_of_no_room (h : w.room = none) : w.ahead p = [] := by
  rw [ahead, h]

/-- Who has something ahead has a session in the room. -/
theorem room_of_ahead {rest : List (Frame J)} (h : w.ahead p = f :: rest) :
    ∃ room s, w.room = some room ∧ w.sockets.get? p = some s := by
  cases hroom : w.room with
  | none =>
    rw [ahead_of_no_room hroom] at h
    cases h
  | some room =>
    cases hs : w.sockets.get? p with
    | none =>
      rw [ahead_of_no_socket hs] at h
      cases h
    | some s => exact ⟨room, s, rfl, rfl⟩

/-- What lies ahead after the room sent something. -/
theorem mem_ahead_of_sends (hroom : w.room = some room) (hroom' : w'.room = some room') (hsends : room.Sends room' es)
    (hheard : (w'.sockets.get? p).map Socket.heard = (w.sockets.get? p).map Socket.heard) (hf : f ∈ w'.ahead p) :
    f ∈ w.ahead p ∨ ∃ e ∈ es, f = .event e := by
  cases hs' : w'.sockets.get? p with
  | none =>
    rw [ahead_of_no_socket hs'] at hf
    cases hf
  | some s' =>
    rw [hs', map_some, eq_comm, map_eq_some_iff] at hheard
    obtain ⟨s, hs, hsame⟩ := hheard
    rw [ahead_eq hroom' hs', hsends p, ← hsame] at hf
    rw [ahead_eq hroom hs]
    cases hrc : room.receivers.get? p with
    | none =>
      rw [hrc] at hf
      cases hf
    | some rc =>
      rw [hrc] at hf
      simp only [map_some, getD_some, Receiver.frames, filter_append, map_append] at hf ⊢
      rw [← cons_append, drop_append, mem_append] at hf
      rcases hf with hold | hnew
      · exact .inl hold
      · right
        obtain ⟨e, he, rfl⟩ := mem_map.mp (mem_of_mem_drop hnew)
        exact ⟨e, mem_of_mem_filter he, rfl⟩

/-- Hearing leaves less ahead, and nothing else changes it while the room stays. -/
theorem mem_ahead_of_update {g : Nat → Socket J → Socket J} (hheard : ∀ p s, s.heard ≤ (g p s).heard)
    (hf : f ∈ ahead { w with sockets := w.sockets.update g } p) : f ∈ w.ahead p := by
  set w' : Wire J := { w with sockets := w.sockets.update g }
  cases hr : w.room with
  | none =>
    have hr' : w'.room = none := hr
    rw [ahead_of_no_room hr'] at hf
    cases hf
  | some room =>
    have hr' : w'.room = some room := hr
    cases hs : w.sockets.get? p with
    | none =>
      have hs' : w'.sockets.get? p = none := by
        rw [get?_update, hs]
        rfl
      rw [ahead_of_no_socket hs'] at hf
      cases hf
    | some s =>
      have hs' : w'.sockets.get? p = some (g p s) := by
        rw [get?_update, hs]
        rfl
      rw [ahead_eq hr' hs'] at hf
      rw [ahead_eq hr hs]
      cases hrc : room.receivers.get? p with
      | none =>
        rw [hrc] at hf
        cases hf
      | some rc =>
        rw [hrc] at hf
        exact drop_subset_drop_left _ (hheard p s) hf

/-- Who joins hears its welcome first; the others hear that it joined. -/
theorem join_cases (w : Wire J) (now : Nat) (userId username : Text) (canWrite : Bool) :
    (w.join now userId username canWrite).1 = none ∧ (w.join now userId username canWrite).2 = w ∨
      (w.join now userId username canWrite).1 = some w.peerSeq ∧
        let room := w.room.getD (Room.fresh now)
        let welcome := (room.join now w.peerSeq userId username canWrite).1
        let w' := (w.join now userId username canWrite).2
        w'.room = some (room.join now w.peerSeq userId username canWrite).2 ∧ w'.peerSeq = w.peerSeq + 1 ∧
          w'.sockets = w.sockets.put w.peerSeq ⟨[], [], 0⟩ ∧ w'.ahead w.peerSeq = [.welcome welcome] ∧
          ∀ a, a ≠ w.peerSeq → ∀ f ∈ w'.ahead a, f ∈ w.ahead a ∨ ∃ peer, f = .event (.peerJoin peer) := by
  unfold join
  dsimp only
  split
  · exact .inl ⟨rfl, rfl⟩
  right
  set room := w.room.getD (Room.fresh now) with hroom
  set p := w.peerSeq
  set peer : PeerInfo := ⟨p, userId, room.sessionUsername userId username, Room.colorForPeer p, canWrite⟩ with hpeer
  set w' : Wire J := ⟨some (room.join now p userId username canWrite).2, p + 1, w.sockets.put p ⟨[], [], 0⟩⟩ with hw'
  have hreceivers : ∀ a, (room.join now p userId username canWrite).2.receivers.get? a =
      ((room.receivers.put p ⟨(room.join now p userId username canWrite).1, []⟩).get? a).map fun rc =>
        ⟨rc.welcome, rc.received ++ [.peerJoin peer]⟩ := by
    intro a
    exact get?_update _ _ a
  refine ⟨rfl, rfl, rfl, rfl, ?_, ?_⟩
  · have hsocket : w'.sockets.get? p = some ⟨[], [], 0⟩ := get?_put_self _ _ _
    have hw'room : w'.room = some (room.join now p userId username canWrite).2 := rfl
    rw [ahead_eq hw'room hsocket, hreceivers p]
    simp [Receiver.frames, shouldSkipEcho, hpeer]
  · intro a hap f hf
    cases hw : w.room with
    | none =>
      -- a new room knows only the one who joined
      have hempty : room = Room.fresh now := by rw [hroom, hw]; rfl
      cases hs' : w'.sockets.get? a with
      | none =>
        rw [ahead_of_no_socket hs'] at hf
        cases hf
      | some s =>
        have hw'room : w'.room = some (room.join now p userId username canWrite).2 := rfl
        rw [ahead_eq hw'room hs', hreceivers a, get?_put_of_ne _ _ hap, hempty] at hf
        cases hf
    | some old =>
      have hsame : room = old := by rw [hroom, hw]; rfl
      cases hs' : w'.sockets.get? a with
      | none =>
        rw [ahead_of_no_socket hs'] at hf
        cases hf
      | some s =>
        have hs : w.sockets.get? a = some s := (get?_put_of_ne _ _ hap).symm.trans hs'
        have hw'room : w'.room = some (room.join now p userId username canWrite).2 := rfl
        rw [ahead_eq hw'room hs', hreceivers a, get?_put_of_ne _ _ hap] at hf
        rw [ahead_eq hw hs, ← hsame]
        cases hrc : room.receivers.get? a with
        | none =>
          rw [hrc] at hf
          cases hf
        | some rc =>
          rw [hrc] at hf
          simp only [map_some, getD_some, Receiver.frames, filter_append, map_append] at hf ⊢
          rw [← cons_append, drop_append, mem_append] at hf
          rcases hf with hold | hnew
          · exact .inl hold
          · right
            obtain ⟨e, he, rfl⟩ := mem_map.mp (mem_of_mem_drop hnew)
            exact ⟨peer, by rw [mem_singleton.mp (mem_of_mem_filter he)]⟩

/-- Who is let in has the next number. -/
theorem join_some {now : Nat} {userId username : Text} {canWrite : Bool} {p : Nat}
    (h : (w.join now userId username canWrite).1 = some p) :
    w.peerSeq = p ∧
      let room := w.room.getD (Room.fresh now)
      let w' := (w.join now userId username canWrite).2
      w'.room = some (room.join now p userId username canWrite).2 ∧ w'.peerSeq = p + 1 ∧
        w'.sockets = w.sockets.put p ⟨[], [], 0⟩ ∧ w'.ahead p = [.welcome (room.join now p userId username canWrite).1] := by
  rcases w.join_cases now userId username canWrite with ⟨hnone, -⟩ | ⟨hsome, hroom, hseq, hsockets, hself, -⟩
  · rw [hnone] at h
    cases h
  · obtain rfl : w.peerSeq = p := some.inj (hsome.symm.trans h)
    exact ⟨rfl, hroom, hseq, hsockets, hself⟩

section Carries

variable {t : Traffic J} {listens listens' : Nat → Prop}

theorem Carries.mono (h : w.Carries t listens) (hsub : ∀ p, listens' p → listens p) : w.Carries t listens' :=
  ⟨h.up, h.log, fun p hp => h.ahead p (hsub p hp)⟩

/-- What carries two kinds of traffic carries what is of both. -/
theorem Carries.both {t₁ t₂ : Traffic J} (h₁ : w.Carries t₁ listens) (h₂ : w.Carries t₂ listens)
    (hup : ∀ m, t₁.up m → t₂.up m → t.up m) (hlog : ∀ e, t₁.log e → t₂.log e → t.log e)
    (hdown : ∀ e, t₁.down e → t₂.down e → t.down e) : w.Carries t listens where
  up := fun p s hs m hm => hup m (h₁.up p s hs m hm) (h₂.up p s hs m hm)
  log := fun room hroom e he => hlog e (h₁.log room hroom e he) (h₂.log room hroom e he)
  ahead := by
    intro p hp f hf
    have hf₁ := h₁.ahead p hp f hf
    have hf₂ := h₂.ahead p hp f hf
    cases f with
    | welcome wl => exact fun e he => hlog e (hf₁ e he) (hf₂ e he)
    | event e => exact hdown e hf₁ hf₂

theorem Carries.empty : (Wire.empty : Wire J).Carries t listens where
  up := fun p s hs => by cases hs
  log := fun room hroom => by cases hroom
  ahead := fun p hp f hf => by cases hf

section

variable (h : w.Carries t listens)
include h

/-- Sockets change in what was sent and heard. -/
theorem Carries.update (g : Nat → Socket J → Socket J)
    (hup : ∀ p s, w.sockets.get? p = some s → ∀ m ∈ (g p s).up, m ∈ s.up ∨ t.up m)
    (hheard : ∀ p s, s.heard ≤ (g p s).heard) : Carries t listens { w with sockets := w.sockets.update g } where
  up := by
    intro p s' hs' m hm
    obtain ⟨s, hs, rfl⟩ := get?_update_some.mp hs'
    rcases hup p s hs m hm with hold | hnew
    · exact h.up p s hs m hold
    · exact hnew
  log := h.log
  ahead := fun p hp f hf => h.ahead p hp f (mem_ahead_of_update hheard hf)

theorem Carries.say (p : Nat) {msgs : List (ClientMsg J)} (hmsgs : ∀ m ∈ msgs, t.up m) :
    (w.say p msgs).Carries t listens := by
  apply h.update
  · intro a s hs m hm
    split at hm
    · rcases mem_append.mp hm with hold | hnew
      · exact .inl hold
      · exact .inr (hmsgs m hnew)
    · exact .inl hm
  · intro a s
    split
    · exact Nat.le_refl _
    · exact Nat.le_refl _

theorem Carries.hear (p : Nat) : (w.hear p).Carries t listens := by
  apply h.update
  · intro a s hs m hm
    split at hm
    · exact .inl hm
    · exact .inl hm
  · intro a s
    split
    · exact Nat.le_succ _
    · exact Nat.le_refl _

theorem Carries.serve (hrelays : t.Relays) (bytes : J → Nat) (now p : Nat) (canWrite : Bool) :
    (w.serve bytes now p canWrite).Carries t listens := by
  unfold Wire.serve
  split
  · rename_i room msg rest answers heard hroom hsocket
    have hmsg : t.up msg := h.up p _ hsocket msg mem_cons_self
    obtain ⟨es, hsends, hstems, hbacklog⟩ := room.handle_sends bytes now p canWrite msg
    have hes : ∀ e ∈ es, t.down e := fun e he => hrelays.stems hmsg (hstems e he)
    refine ⟨?_, ?_, ?_⟩
    · intro a s hs m hm
      rcases get?_put_some.mp hs with ⟨-, rfl⟩ | ⟨-, hs⟩
      · exact h.up p _ hsocket m (mem_cons_of_mem _ hm)
      · exact h.up a s hs m hm
    · intro room' hroom' e he
      cases hroom'
      rcases hbacklog e he with hold | ⟨n, payload, rfl, rfl⟩
      · exact h.log room hroom e hold
      · exact (hrelays.op _ hmsg).2
    · intro a ha f hf
      have hheard : ((w.sockets.put p ⟨rest, answers ++ (room.handle bytes now p canWrite msg).1.toList, heard⟩).get? a).map
          Socket.heard = (w.sockets.get? a).map Socket.heard := by
        rw [get?_put]
        split
        · rename_i hap
          rw [hap, hsocket]
          rfl
        · rfl
      have hmem : f ∈ w.ahead a ∨ ∃ e ∈ es, f = .event e := mem_ahead_of_sends hroom rfl hsends hheard hf
      rcases hmem with hold | ⟨e, he, rfl⟩
      · exact h.ahead a ha f hold
      · exact hes e he
  · exact h

theorem Carries.leave (hrelays : t.Relays) (now p : Nat) : (w.leave now p).Carries t listens where
  up := by
    intro a s hs m hm
    obtain ⟨-, hs⟩ := get?_erase_some.mp hs
    exact h.up a s hs m hm
  log := by
    intro room' hroom' e he
    obtain ⟨room, hroom, rfl⟩ := map_eq_some_iff.mp hroom'
    rw [Room.backlog_leave] at he
    exact h.log room hroom e he
  ahead := by
    intro a ha f hf
    cases hroom : w.room with
    | none =>
      have hno : (w.leave now p).room = none := by
        rw [Wire.leave, hroom]
        rfl
      rw [ahead_of_no_room hno] at hf
      cases hf
    | some room =>
      have hroom' : (w.leave now p).room = some (room.leave now p) := by
        rw [Wire.leave, hroom]
        rfl
      cases hs' : (w.leave now p).sockets.get? a with
      | none =>
        rw [ahead_of_no_socket hs'] at hf
        cases hf
      | some s =>
        have hheard : ((w.leave now p).sockets.get? a).map Socket.heard = (w.sockets.get? a).map Socket.heard := by
          rw [Wire.leave, get?_erase] at hs' ⊢
          split at hs'
          · cases hs'
          · rename_i hap
            rw [if_neg hap]
        rcases mem_ahead_of_sends hroom hroom' (room.sends_leave now p) hheard hf with hold | ⟨e, he, rfl⟩
        · exact h.ahead a ha f hold
        · rw [mem_singleton.mp he]
          exact hrelays.peerLeave p

theorem Carries.join (hrelays : t.Relays) (now : Nat) (userId username : Text)
    (canWrite : Bool) (hlistens : ∀ p, listens' p → listens p ∨ (w.join now userId username canWrite).1 = some p) :
    (w.join now userId username canWrite).2.Carries t listens' := by
  have hbacklog : ∀ e ∈ (w.room.getD (Room.fresh now)).backlog, t.log e := by
    cases hroom : w.room with
    | none => exact fun e he => (nomatch he)
    | some room => exact h.log room hroom
  rcases w.join_cases now userId username canWrite with ⟨hnone, hsame⟩ | ⟨hsome, hroom, -, hsockets, hself, hothers⟩
  · rw [hsame]
    apply h.mono
    intro p hp
    rcases hlistens p hp with hold | hnew
    · exact hold
    · rw [hnone] at hnew
      cases hnew
  · refine ⟨?_, ?_, ?_⟩
    · intro a s hs m hm
      rw [hsockets] at hs
      rcases get?_put_some.mp hs with ⟨-, rfl⟩ | ⟨-, hs⟩
      · cases hm
      · exact h.up a s hs m hm
    · intro room' hroom' e he
      rw [hroom] at hroom'
      cases hroom'
      exact hbacklog e he
    · intro a ha f hf
      by_cases hap : a = w.peerSeq
      · subst hap
        rw [hself, mem_singleton] at hf
        subst hf
        exact hbacklog
      · rcases hothers a hap f hf with hold | ⟨peer, rfl⟩
        · rcases hlistens a ha with hlist | hnew
          · exact h.ahead a hlist f hold
          · rw [hsome] at hnew
            exact absurd (some.inj hnew).symm hap
        · exact hrelays.peerJoin peer

theorem Carries.evictIdle (now : Nat) : (w.evictIdle now).Carries t listens where
  up := h.up
  log := by
    intro room hroom e he
    exact h.log room (filter_eq_some_iff.mp hroom).1 e he
  ahead := by
    intro a ha f hf
    cases hroom : (w.evictIdle now).room with
    | none =>
      rw [ahead_of_no_room hroom] at hf
      cases hf
    | some room =>
      have hold : w.room = some room := (filter_eq_some_iff.mp hroom).1
      apply h.ahead a ha f
      rw [Wire.ahead, hroom] at hf
      rw [Wire.ahead, hold]
      exact hf

end

end Carries

end Wire

end LibreServ.Collab
