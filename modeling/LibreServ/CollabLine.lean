import LibreServ.CollabWire
import LibreServ.CollabCatchup
import LibreServ.CollabElection

/-! What lies ahead of a peer, to the letter. Whatever the room sends is put behind what a peer has still to hear; the
edits among it are those of the room that the peer has not heard, in their order. -/

namespace LibreServ.Collab

open List Option Table
open Files (Text)

variable {J : Type}

theorem opsOf_map_op (ops : List (Op J)) : opsOf (ops.map .op) = ops := by
  induction ops with
  | nil => rfl
  | cons o rest ih =>
    show o :: opsOf (rest.map .op) = o :: rest
    rw [ih]

def Frame.ops : Frame J → List (Op J)
  | .welcome w => opsOf w.catchup
  | .event e => opsOf [e]

/-! ### A room that moves on -/

namespace Room

variable {room room' : Room J} {es : List (ServerEvent J)}

/-- The room sends `es`, and takes in the edits among them. -/
structure Moves (room room' : Room J) (es : List (ServerEvent J)) : Prop where
  sends : room.Sends room' es
  accepted : room'.accepted = room.accepted ++ opsOf es
  covered : room.covered ≤ room'.covered

theorem Moves.of_same (hreceivers : room'.receivers = room.receivers) (haccepted : room'.accepted = room.accepted)
    (hcovered : room.covered ≤ room'.covered) : room.Moves room' [] :=
  ⟨Sends.of_same hreceivers, haccepted.trans (append_nil _).symm, hcovered⟩

section

variable (h : room.Moves room' [])

include h

theorem Moves.send {e : ServerEvent J} (he : opsOf [e] = []) : room.Moves (room'.send e) [e] where
  sends := by
    intro p
    rw [sends_send room' e p, h.sends p]
    cases room.receivers.get? p with
    | none => rfl
    | some rc => simp
  accepted := by
    rw [he, append_nil]
    have haccepted := h.accepted
    rw [show opsOf ([] : List (ServerEvent J)) = [] from rfl, append_nil] at haccepted
    exact haccepted
  covered := h.covered

theorem Moves.releaseHolderPeer (p : Nat) : room.Moves (room'.releaseHolderPeer p) [] := by
  unfold Room.releaseHolderPeer
  split
  · exact ⟨h.sends, h.accepted, h.covered⟩
  · exact h

theorem Moves.releaseHolderUser (userId : Text) : room.Moves (room'.releaseHolderUser userId) [] := by
  unfold Room.releaseHolderUser
  split
  · exact h
  · split
    · exact ⟨h.sends, h.accepted, h.covered⟩
    · exact h

theorem Moves.compacted (coverage : Option Nat) :
    room.Moves (match coverage with
      | some seq => room'.compactBacklog seq
      | none => room') [] := by
  cases coverage with
  | none => exact h
  | some seq => exact ⟨h.sends, h.accepted, h.covered.trans (Nat.le_max_left _ _)⟩

end

theorem moves_leave (room : Room J) (now p : Nat) : room.Moves (room.leave now p) [.peerLeave p] := by
  have hleft : room.Moves { room with peers := room.peers.erase p } [] := Moves.of_same rfl rfl (Nat.le_refl _)
  have hreleased := hleft.releaseHolderPeer p
  have htimed : room.Moves { ({ room with peers := room.peers.erase p } : Room J).releaseHolderPeer p with lastEvent := now } [] :=
    ⟨hreleased.sends, hreleased.accepted, hreleased.covered⟩
  exact htimed.send rfl

theorem moves_fileLanded (room : Room J) (now : Nat) (userId : Text) (coverage : Option Nat) :
    room.Moves (room.fileLanded now userId coverage) [] := by
  have hsame : room.Moves room [] := Moves.of_same rfl rfl (Nat.le_refl _)
  have hreleased := (hsame.compacted coverage).releaseHolderUser userId
  exact ⟨hreleased.sends, hreleased.accepted, hreleased.covered⟩

theorem moves_handle (room : Room J) (bytes : J → Nat) (now p : Nat) (canWrite : Bool) (msg : ClientMsg J) :
    ∃ es, room.Moves (room.handle bytes now p canWrite msg).2 es := by
  have hnow : room.Moves { room with lastEvent := now } [] := Moves.of_same rfl rfl (Nat.le_refl _)
  cases msg with
  | hello clientId displayName | ping => exact ⟨[], hnow⟩
  | presence cursor => exact ⟨_, hnow.send rfl⟩
  | saveEnd => exact ⟨[], hnow.releaseHolderPeer p⟩
  | saveLock =>
    refine ⟨[], ?_⟩
    simp only [handle, grantSaveLock]
    split
    · exact hnow
    · split
      · exact hnow
      · exact ⟨hnow.sends, hnow.accepted, hnow.covered⟩
  | op payload =>
    simp only [handle]
    split
    · exact ⟨[], hnow⟩
    · split
      · exact ⟨[], hnow⟩
      · exact ⟨[.op ⟨room.seq + 1, p, payload⟩], Sends.send_of_same rfl _, rfl, Nat.le_refl _⟩
  | saved size seq =>
    simp only [handle]
    split
    · exact ⟨[], hnow⟩
    · exact ⟨_, ((hnow.compacted seq).releaseHolderPeer p).send rfl⟩

/-- An ack names an edit that is in. -/
theorem ack_le {bytes : J → Nat} {now p : Nat} {canWrite : Bool} {msg : ClientMsg J} {n : Nat}
    (hn : (room.handle bytes now p canWrite msg).1 = some (.ack n)) : n ≤ (room.handle bytes now p canWrite msg).2.seq := by
  cases msg with
  | hello clientId displayName | ping | presence cursor | saveEnd => cases hn
  | saveLock =>
    simp only [handle, grantSaveLock] at hn
    split at hn
    · cases hn
    · split at hn
      · cases hn
      · cases hn
  | op payload =>
    simp only [handle] at hn ⊢
    split at hn
    · cases hn
    rename_i hwrite
    rw [if_neg hwrite]
    split at hn
    · cases hn
    · rename_i hlarge
      rw [if_neg hlarge]
      cases hn
      exact Nat.le_refl _
  | saved size seq =>
    simp only [handle] at hn
    split at hn
    · cases hn
    · cases hn

theorem Moves.seq_le (h : room.Moves room' es) (hsteady : Steady room) (hsteady' : Steady room') : room.seq ≤ room'.seq := by
  rw [← hsteady.length, ← hsteady'.length, h.accepted, length_append]
  exact Nat.le_add_right _ _

end Room

/-! ### Sessions and the room -/

theorem Receiver.frames_append (rc : Receiver J) (p : Nat) (es : List (ServerEvent J)) :
    (⟨rc.welcome, rc.received ++ es⟩ : Receiver J).frames p =
      rc.frames p ++ (es.filter fun e => !shouldSkipEcho p e).map .event := by
  simp only [Receiver.frames, filter_append, map_append, cons_append]

/-- The session is of one of the room's peers, has heard no more than it was sent, and was told of edits that are in. -/
structure Room.Hosts (room : Room J) (p : Nat) (s : Socket J) (rc : Receiver J) : Prop where
  peer : (room.peers.get? p).isSome = true
  receiver : room.receivers.get? p = some rc
  heard : s.heard ≤ (rc.frames p).length
  acks : ∀ n, .ack n ∈ s.answers → n ≤ room.seq

theorem Room.Hosts.moves {room room' : Room J} {p : Nat} {s s' : Socket J} {rc : Receiver J} {es : List (ServerEvent J)}
    (h : room.Hosts p s rc) (hmoves : room.Moves room' es) (hseq : room.seq ≤ room'.seq) (hheard : s'.heard = s.heard)
    (hpeer : (room'.peers.get? p).isSome = true) (hanswers : ∀ n, .ack n ∈ s'.answers → .ack n ∈ s.answers ∨ n ≤ room'.seq) :
    room'.Hosts p s' ⟨rc.welcome, rc.received ++ es⟩ where
  peer := hpeer
  receiver := by
    rw [hmoves.sends p, h.receiver]
    rfl
  heard := by
    rw [rc.frames_append, length_append, hheard]
    exact Nat.le_add_right_of_le h.heard
  acks := by
    intro n hn
    rcases hanswers n hn with hold | hnew
    · exact (h.acks n hold).trans hseq
    · exact hnew

namespace Wire

structure Sound (w : Wire J) : Prop where
  steady : ∀ room, w.room = some room → Steady room
  sessions : ∀ p s, w.sockets.get? p = some s → ∃ room rc, w.room = some room ∧ room.Hosts p s rc

section Sound

variable {w w' : Wire J} {room room' : Room J} {es : List (ServerEvent J)} {p : Nat} {s s' : Socket J}

theorem Sound.empty : (Wire.empty : Wire J).Sound :=
  ⟨fun _ hroom => (nomatch hroom), fun _ _ hs => (nomatch hs)⟩

theorem Sound.hosts (h : w.Sound) (hroom : w.room = some room) (hs : w.sockets.get? p = some s) :
    ∃ rc, room.Hosts p s rc := by
  obtain ⟨room₀, rc, hroom₀, hhosts⟩ := h.sessions p s hs
  obtain rfl : room = room₀ := some.inj (hroom.symm.trans hroom₀)
  exact ⟨rc, hhosts⟩

theorem ahead_of_hosts {rc : Receiver J} (hroom : w.room = some room) (hs : w.sockets.get? p = some s)
    (hhosts : room.Hosts p s rc) : w.ahead p = (rc.frames p).drop s.heard := by
  rw [ahead_eq hroom hs, hhosts.receiver]
  rfl

section

variable (h : w.Sound)
include h

/-- What the room sends is put behind what lies ahead. -/
theorem Sound.ahead_of_moves (hroom : w.room = some room) (hroom' : w'.room = some room')
    (hmoves : room.Moves room' es) (hs : w.sockets.get? p = some s) (hs' : w'.sockets.get? p = some s')
    (hheard : s'.heard = s.heard) : w'.ahead p = w.ahead p ++ (es.filter fun e => !shouldSkipEcho p e).map .event := by
  obtain ⟨rc, hhosts⟩ := h.hosts hroom hs
  have hrc' : room'.receivers.get? p = some ⟨rc.welcome, rc.received ++ es⟩ := by
    rw [hmoves.sends p, hhosts.receiver]
    rfl
  rw [ahead_of_hosts hroom hs hhosts, ahead_eq hroom' hs', hrc', map_some, getD_some, hheard,
    rc.frames_append, drop_append_of_le_length hhosts.heard]

theorem Sound.serve (bytes : J → Nat) (now p : Nat) (canWrite : Bool) : (w.serve bytes now p canWrite).Sound := by
  unfold Wire.serve
  split
  · rename_i room msg rest answers heard hroom hsocket
    obtain ⟨es, hmoves⟩ := room.moves_handle bytes now p canWrite msg
    have hsteady := h.steady room hroom
    have hsteady' : Steady (room.handle bytes now p canWrite msg).2 := hsteady.handle bytes now p canWrite msg
    have hseq := hmoves.seq_le hsteady hsteady'
    have hpeers : (room.handle bytes now p canWrite msg).2.peers = room.peers := peers_handle now p canWrite msg
    refine ⟨?_, ?_⟩
    · intro room' hroom'
      cases hroom'
      exact hsteady'
    · intro a s' hs'
      rcases get?_put_some.mp hs' with ⟨rfl, rfl⟩ | ⟨-, hs'⟩
      · obtain ⟨rc, hhosts⟩ := h.hosts hroom hsocket
        refine ⟨_, _, rfl, hhosts.moves hmoves hseq rfl (hpeers ▸ hhosts.peer) ?_⟩
        intro n hn
        rcases mem_append.mp hn with hold | hnew
        · exact .inl hold
        · rw [mem_toList] at hnew
          exact .inr (Room.ack_le hnew)
      · obtain ⟨rc, hhosts⟩ := h.hosts hroom hs'
        exact ⟨_, _, rfl, hhosts.moves hmoves hseq rfl (hpeers ▸ hhosts.peer) fun n hn => .inl hn⟩
  · exact h

theorem Sound.leave (now p : Nat) : (w.leave now p).Sound where
  steady := by
    intro room' hroom'
    obtain ⟨room, hroom, rfl⟩ := map_eq_some_iff.mp hroom'
    exact (h.steady room hroom).leave now p
  sessions := by
    intro a s hs
    obtain ⟨hap, hs⟩ := get?_erase_some.mp hs
    obtain ⟨room, rc, hroom, hhosts⟩ := h.sessions a s hs
    have hsteady := h.steady room hroom
    have hroom' : (w.leave now p).room = some (room.leave now p) := by
      rw [Wire.leave, hroom]
      rfl
    refine ⟨_, _, hroom', hhosts.moves (room.moves_leave now p) ?_ rfl ?_ fun n hn => .inl hn⟩
    · exact (room.moves_leave now p).seq_le hsteady (hsteady.leave now p)
    · rw [peers_leave, get?_erase, if_neg hap]
      exact hhosts.peer

theorem Sound.fileLanded (now : Nat) (userId : Text) (coverage : Option Nat) :
    (w.fileLanded now userId coverage).Sound where
  steady := by
    intro room' hroom'
    obtain ⟨room, hroom, rfl⟩ := map_eq_some_iff.mp hroom'
    exact (h.steady room hroom).fileLanded now userId coverage
  sessions := by
    intro a s hs
    obtain ⟨room, rc, hroom, hhosts⟩ := h.sessions a s hs
    have hsteady := h.steady room hroom
    have hroom' : (w.fileLanded now userId coverage).room = some (room.fileLanded now userId coverage) := by
      rw [Wire.fileLanded, hroom]
      rfl
    have hmoves := room.moves_fileLanded now userId coverage
    have hseq := hmoves.seq_le hsteady (hsteady.fileLanded now userId coverage)
    have hpeers : (room.fileLanded now userId coverage).peers = room.peers := peers_fileLanded now userId coverage
    exact ⟨_, _, hroom', hhosts.moves hmoves hseq rfl (hpeers ▸ hhosts.peer) fun n hn => .inl hn⟩

/-- A room that is given up has no sessions. -/
theorem Sound.evictIdle (now : Nat) : (w.evictIdle now).Sound where
  steady := fun room hroom => h.steady room (filter_eq_some_iff.mp hroom).1
  sessions := by
    intro a s hs
    obtain ⟨room, rc, hroom, hhosts⟩ := h.sessions a s hs
    refine ⟨room, rc, ?_, hhosts⟩
    rw [Wire.evictIdle, filter_eq_some_iff]
    refine ⟨hroom, ?_⟩
    have hpeers : room.peers.rows ≠ [] := by
      intro hnil
      obtain ⟨info, hinfo⟩ := isSome_iff_exists.mp hhosts.peer
      have hmem := mem_rows.mpr hinfo
      rw [hnil] at hmem
      cases hmem
    simp [hpeers]

/-- Sessions send, and take answers. -/
theorem Sound.update (g : Nat → Socket J → Socket J) (hheard : ∀ p s, (g p s).heard = s.heard)
    (hanswers : ∀ p s, ∀ e ∈ (g p s).answers, e ∈ s.answers) : Sound { w with sockets := w.sockets.update g } where
  steady := h.steady
  sessions := by
    intro a s' hs'
    obtain ⟨s, hs, rfl⟩ := get?_update_some.mp hs'
    obtain ⟨room, rc, hroom, hhosts⟩ := h.sessions a s hs
    refine ⟨room, rc, hroom, hhosts.peer, hhosts.receiver, ?_, fun n hn => hhosts.acks n (hanswers a s _ hn)⟩
    rw [hheard]
    exact hhosts.heard

theorem Sound.say (p : Nat) (msgs : List (ClientMsg J)) : (w.say p msgs).Sound := by
  apply h.update
  · intro a s
    split
    · rfl
    · rfl
  · intro a s e he
    split at he
    · exact he
    · exact he

theorem Sound.takeAnswer (p : Nat) : (w.takeAnswer p).Sound := by
  apply h.update
  · intro a s
    split
    · rfl
    · rfl
  · intro a s e he
    split at he
    · exact mem_of_mem_drop he
    · exact he

theorem Sound.hear {f : Frame J} {rest : List (Frame J)} (hahead : w.ahead p = f :: rest) : (w.hear p).Sound where
  steady := h.steady
  sessions := by
    intro a s' hs'
    rw [Wire.hear, get?_update, map_eq_some_iff] at hs'
    obtain ⟨s, hs, rfl⟩ := hs'
    obtain ⟨room, rc, hroom, hhosts⟩ := h.sessions a s hs
    refine ⟨room, rc, hroom, hhosts.peer, hhosts.receiver, ?_, ?_⟩
    · split
      · rename_i hap
        subst hap
        rw [ahead_of_hosts hroom hs hhosts] at hahead
        have hlt : s.heard < (rc.frames a).length := by
          by_contra hge
          rw [drop_of_length_le (Nat.not_lt.mp hge)] at hahead
          cases hahead
        exact hlt
      · exact hhosts.heard
    · intro n hn
      apply hhosts.acks n
      split at hn
      · exact hn
      · exact hn

theorem Sound.ahead_hear {f : Frame J} {rest : List (Frame J)} (hahead : w.ahead p = f :: rest) :
    (w.hear p).ahead p = rest := by
  obtain ⟨room, s, hr, hs⟩ := room_of_ahead hahead
  obtain ⟨rc, hhosts⟩ := h.hosts hr hs
  have hs' : (w.hear p).sockets.get? p = some { s with heard := s.heard + 1 } := by
    rw [Wire.hear, get?_update, hs, map_some, if_pos rfl]
  have hr' : (w.hear p).room = some room := hr
  rw [ahead_of_hosts hr hs hhosts] at hahead
  rw [ahead_eq hr' hs', hhosts.receiver, map_some, ← drop_drop, hahead]
  rfl

end

/-- The room with the newcomer in it, before it is announced. -/
theorem join_room (room : Room J) (now p : Nat) (userId username : Text) (canWrite : Bool) :
    ∃ (entered : Room J) (peer : PeerInfo),
      entered.peers = room.peers.put p peer ∧ entered.seq = room.seq ∧ entered.accepted = room.accepted ∧
        entered.covered = room.covered ∧
        entered.receivers = room.receivers.put p ⟨(room.join now p userId username canWrite).1, []⟩ ∧
        peer.peerId = p ∧ (room.join now p userId username canWrite).2 = entered.send (.peerJoin peer) := by
  let peer : PeerInfo := ⟨p, userId, room.sessionUsername userId username, Room.colorForPeer p, canWrite⟩
  let entered : Room J := { room with
    peers := room.peers.put p peer, lastEvent := now,
    receivers := room.receivers.put p ⟨(room.join now p userId username canWrite).1, []⟩ }
  exact ⟨entered, peer, rfl, rfl, rfl, rfl, rfl, rfl, rfl⟩

theorem Sound.join (h : w.Sound) (now : Nat) (userId username : Text) (canWrite : Bool) :
    (w.join now userId username canWrite).2.Sound := by
  rcases w.join_cases now userId username canWrite with ⟨-, hsame⟩ | ⟨-, hroom', -, hsockets, -, -⟩
  · rw [hsame]
    exact h
  set room := w.room.getD (Room.fresh now) with hroom
  have hsteady : Steady room := by
    rw [hroom]
    cases hr : w.room with
    | none => exact steady_fresh now
    | some old => exact h.steady old hr
  obtain ⟨entered, peer, hpeers, hseq, haccepted, hcovered, hreceivers, -, hjoined⟩ :=
    join_room room now w.peerSeq userId username canWrite
  have hsteady' := hsteady.join now w.peerSeq userId username canWrite
  have hmoves : entered.Moves (room.join now w.peerSeq userId username canWrite).2 [.peerJoin peer] := by
    rw [hjoined]
    exact (Room.Moves.of_same rfl rfl (Nat.le_refl _)).send rfl
  have hseq' : entered.seq ≤ (room.join now w.peerSeq userId username canWrite).2.seq := by
    rw [hjoined]
    exact Nat.le_refl _
  refine ⟨?_, ?_⟩
  · intro room₀ hroom₀
    rw [hroom'] at hroom₀
    cases hroom₀
    exact hsteady'
  · intro a s hs
    rw [hsockets, get?_put] at hs
    have hosts : ∃ rc, entered.Hosts a s rc := by
      split at hs
      · rename_i hap
        subst hap
        obtain rfl := some.inj hs
        refine ⟨⟨(room.join now w.peerSeq userId username canWrite).1, []⟩, ?_, ?_, Nat.zero_le _, fun n hn => (by cases hn)⟩
        · rw [hpeers, get?_put_self]
          rfl
        · rw [hreceivers]
          exact get?_put_self _ _ _
      · rename_i hap
        obtain ⟨old, rc, hold, hhosts⟩ := h.sessions a s hs
        obtain rfl : room = old := by
          rw [hroom, hold]
          rfl
        refine ⟨rc, ?_, ?_, hhosts.heard, hseq ▸ hhosts.acks⟩
        · rw [hpeers, get?_put_of_ne _ _ hap]
          exact hhosts.peer
        · rw [hreceivers, get?_put_of_ne _ _ hap]
          exact hhosts.receiver
    obtain ⟨rc, hhosts⟩ := hosts
    refine ⟨_, _, hroom', hhosts.moves hmoves hseq' rfl ?_ fun n hn => .inl hn⟩
    rw [hjoined]
    exact hhosts.peer

/-- Whoever is in the room hears of the newcomer. -/
theorem Sound.ahead_join (h : w.Sound) {now : Nat} {userId username : Text} {canWrite : Bool} {q : Nat}
    (hjoined : (w.join now userId username canWrite).1 = some q) (hs : w.sockets.get? p = some s) (hne : p ≠ q) :
    ∃ peer, (w.join now userId username canWrite).2.ahead p = w.ahead p ++ [.event (.peerJoin peer)] := by
  obtain ⟨-, hroom', -, hsockets, -⟩ := join_some hjoined
  obtain ⟨room, rc, hroom, hhosts⟩ := h.sessions p s hs
  rw [hroom, getD_some] at hroom'
  obtain ⟨entered, peer, -, -, -, -, hreceivers, hpeer, hafter⟩ := join_room room now q userId username canWrite
  refine ⟨peer, ?_⟩
  have hs' : (w.join now userId username canWrite).2.sockets.get? p = some s := by
    rw [hsockets, get?_put_of_ne _ _ hne]
    exact hs
  have hrc' : (room.join now q userId username canWrite).2.receivers.get? p =
      some ⟨rc.welcome, rc.received ++ [.peerJoin peer]⟩ := by
    rw [hafter, Room.sends_send entered _ p, hreceivers, get?_put_of_ne _ _ hne, hhosts.receiver]
    rfl
  rw [ahead_of_hosts hroom hs hhosts, ahead_eq hroom' hs', hrc', map_some, getD_some, rc.frames_append,
    drop_append_of_le_length hhosts.heard]
  have hkept : ([.peerJoin peer] : List (ServerEvent J)).filter (fun e => !shouldSkipEcho p e) = [.peerJoin peer] := by
    simp [shouldSkipEcho, hpeer, hne.symm]
  rw [hkept]
  rfl

end Sound

end Wire

/-! ### Edits ahead -/

section Line

variable {room room' : Room J} {p reach : Nat} {fs : List (Frame J)} {es : List (ServerEvent J)} {wl : Welcome J}

/-- Only events, and the edits among them are those of others after `reach`. -/
structure Tail (room : Room J) (p reach : Nat) (fs : List (Frame J)) : Prop where
  events : ∀ f ∈ fs, ∃ e, f = .event e
  ops : fs.flatMap Frame.ops = room.accepted.filter fun o => reach < o.seq && o.peerId ≠ p

/-- The welcome has every edit of the room so far, but for those in the file. -/
structure Greets (room : Room J) (p reach : Nat) (wl : Welcome J) : Prop where
  peerId : wl.peerId = p
  reach : reach ≤ wl.seq
  seq : wl.seq ≤ room.seq
  known : ∀ o ∈ opsOf wl.catchup, o ∈ room.accepted ∧ o.seq ≤ wl.seq
  nodup : ((opsOf wl.catchup).map Op.seq).Nodup
  whole : ∀ o ∈ room.accepted, o.seq ≤ wl.seq → o ∈ opsOf wl.catchup ∨ o.seq ≤ room.covered

/-- What lies ahead of a peer that knows the edits up to `reach`. -/
def Line (room : Room J) (p reach : Nat) : List (Frame J) → Prop
  | .welcome wl :: rest => Greets room p reach wl ∧ Tail room p wl.seq rest
  | fs => Tail room p reach fs

theorem Tail.line (h : Tail room p reach fs) : Line room p reach fs := by
  cases fs with
  | nil => exact h
  | cons f rest =>
    obtain ⟨e, rfl⟩ := h.events f mem_cons_self
    exact h

/-- New edits have numbers that are new. -/
theorem Room.Moves.seq_lt (h : room.Moves room' es) (hsteady : Steady room) (hsteady' : Steady room') :
    ∀ o ∈ opsOf es, room.seq < o.seq := by
  intro o ho
  have hdrop : room'.accepted.drop room.seq = opsOf es := by
    rw [h.accepted, ← hsteady.length, drop_left]
  have hnumbers := drop_numbers hsteady'.numbers room.seq
  rw [hdrop] at hnumbers
  have hmem : o.seq ∈ (opsOf es).map Op.seq := mem_map_of_mem ho
  rw [hnumbers, mem_range'_1] at hmem
  omega

theorem flatMap_ops_of_events (p : Nat) (es : List (ServerEvent J)) :
    ((es.filter fun e => !shouldSkipEcho p e).map Frame.event).flatMap Frame.ops =
      (opsOf es).filter fun o => o.peerId ≠ p := by
  induction es with
  | nil => rfl
  | cons e rest ih =>
    cases e with
    | op o =>
      by_cases hp : o.peerId = p
      · simpa [shouldSkipEcho, hp, opsOf] using ih
      · simpa [shouldSkipEcho, hp, opsOf, Frame.ops] using ih
    | peerJoin peer =>
      by_cases hp : peer.peerId = p
      · simpa [shouldSkipEcho, hp, opsOf] using ih
      · simpa [shouldSkipEcho, hp, opsOf, Frame.ops] using ih
    | presence src cursor | saved src size seq =>
      by_cases hp : src = p
      · simpa [shouldSkipEcho, hp, opsOf] using ih
      · simpa [shouldSkipEcho, hp, opsOf, Frame.ops] using ih
    | _ => simpa [shouldSkipEcho, opsOf, Frame.ops] using ih

theorem Tail.moves (h : Tail room p reach fs) (hmoves : room.Moves room' es) (hsteady : Steady room)
    (hsteady' : Steady room') (hreach : reach ≤ room.seq) :
    Tail room' p reach (fs ++ (es.filter fun e => !shouldSkipEcho p e).map .event) where
  events := by
    intro f hf
    rcases mem_append.mp hf with hold | hnew
    · exact h.events f hold
    · obtain ⟨e, -, rfl⟩ := mem_map.mp hnew
      exact ⟨e, rfl⟩
  ops := by
    rw [flatMap_append, h.ops, flatMap_ops_of_events, hmoves.accepted, filter_append]
    congr 1
    apply filter_congr
    intro o ho
    have hlt := hmoves.seq_lt hsteady hsteady' o ho
    have hafter : decide (reach < o.seq) = true := decide_eq_true (by omega)
    rw [hafter, Bool.true_and]

theorem Greets.moves (h : Greets room p reach wl) (hmoves : room.Moves room' es) (hsteady : Steady room)
    (hsteady' : Steady room') : Greets room' p reach wl where
  peerId := h.peerId
  reach := h.reach
  seq := h.seq.trans (hmoves.seq_le hsteady hsteady')
  known := by
    intro o ho
    rw [hmoves.accepted]
    exact ⟨mem_append_left _ (h.known o ho).1, (h.known o ho).2⟩
  nodup := h.nodup
  whole := by
    intro o ho hle
    rw [hmoves.accepted] at ho
    rcases mem_append.mp ho with hold | hnew
    · rcases h.whole o hold hle with hin | hcovered
      · exact .inl hin
      · exact .inr (hcovered.trans hmoves.covered)
    · have hlt := hmoves.seq_lt hsteady hsteady' o hnew
      have hseq := h.seq
      omega

section

variable (h : Line room p reach fs)

include h

theorem Line.moves (hmoves : room.Moves room' es) (hsteady : Steady room)
    (hsteady' : Steady room') (hreach : reach ≤ room.seq) :
    Line room' p reach (fs ++ (es.filter fun e => !shouldSkipEcho p e).map .event) := by
  cases fs with
  | nil =>
    have htail : Tail room' p reach _ := Tail.moves h hmoves hsteady hsteady' hreach
    exact htail.line
  | cons f rest =>
    cases f with
    | event e => exact Tail.moves h hmoves hsteady hsteady' hreach
    | welcome wl => exact ⟨h.1.moves hmoves hsteady hsteady', h.2.moves hmoves hsteady hsteady' h.1.seq⟩

/-- Only a room's edits matter, and how far they are in the file. -/
theorem Line.of_same (haccepted : room'.accepted = room.accepted) (hseq : room'.seq = room.seq)
    (hcovered : room'.covered = room.covered) : Line room' p reach fs := by
  have htail : ∀ n fs, Tail room p n fs → Tail room' p n fs := by
    intro n fs ht
    refine ⟨ht.events, ?_⟩
    rw [haccepted]
    exact ht.ops
  cases fs with
  | nil => exact htail _ _ h
  | cons f rest =>
    cases f with
    | event e => exact htail _ _ h
    | welcome wl =>
      obtain ⟨hgreets, hrest⟩ : Greets room p reach wl ∧ Tail room p wl.seq rest := h
      refine ⟨⟨hgreets.peerId, hgreets.reach, hseq ▸ hgreets.seq, ?_, hgreets.nodup, ?_⟩, htail _ _ hrest⟩
      · rw [haccepted]
        exact hgreets.known
      · rw [haccepted, hcovered]
        exact hgreets.whole

/-- What is no edit is put behind. -/
theorem Line.append {e : ServerEvent J} (he : opsOf [e] = []) :
    Line room p reach (fs ++ [.event e]) := by
  have htail : ∀ n fs, Tail room p n fs → Tail room p n (fs ++ [.event e]) := by
    intro n fs ht
    refine ⟨?_, ?_⟩
    · intro f hf
      rcases mem_append.mp hf with hold | hnew
      · exact ht.events f hold
      · exact ⟨e, mem_singleton.mp hnew⟩
    · have hnone : [Frame.event e].flatMap Frame.ops = [] := by
        rw [flatMap_singleton]
        exact he
      rw [flatMap_append, ht.ops, hnone, append_nil]
  cases fs with
  | nil => exact htail _ _ h
  | cons f rest =>
    cases f with
    | event e' => exact htail _ _ h
    | welcome wl => exact ⟨h.1, htail _ _ h.2⟩

end

/-- A newcomer to a room that has lost no edits. -/
theorem line_join (hsteady : Steady room) (hshort : room.seq ≤ room.covered + opBacklog) (hreach : reach ≤ room.seq)
    (now : Nat) (userId username : Text) (canWrite : Bool) :
    Line (room.join now p userId username canWrite).2 p reach [.welcome (room.join now p userId username canWrite).1] := by
  have hin : ∀ o ∈ room.accepted, o.seq ≤ room.seq := by
    intro o ho
    have hmem : o.seq ∈ room.accepted.map Op.seq := mem_map_of_mem ho
    rw [hsteady.numbers, mem_range'_1] at hmem
    omega
  have hcatchup : opsOf room.backlog = room.accepted.filter fun o => room.covered < o.seq := by
    have hnumbers : room.accepted.map Op.seq = List.range' (0 + 1) room.seq := hsteady.numbers
    rw [hsteady.backlog, opsOf_map_op, filter_seq hnumbers room.covered]
    congr 1
    omega
  have hgreets : Greets room p reach (room.join now p userId username canWrite).1 := by
    refine ⟨rfl, hreach, Nat.le_refl _, ?_, ?_, ?_⟩
    · intro o ho
      have ho' : o ∈ opsOf room.backlog := ho
      rw [hcatchup] at ho'
      have hmem := mem_of_mem_filter ho'
      exact ⟨hmem, hin o hmem⟩
    · show ((opsOf room.backlog).map Op.seq).Nodup
      rw [hcatchup]
      have hnodup : (room.accepted.map Op.seq).Nodup := by
        rw [hsteady.numbers]
        exact nodup_range'
      exact hnodup.sublist (filter_sublist.map Op.seq)
    · intro o ho _
      by_cases hcov : room.covered < o.seq
      · left
        show o ∈ opsOf room.backlog
        rw [hcatchup, mem_filter]
        exact ⟨ho, decide_eq_true hcov⟩
      · exact .inr (Nat.not_lt.mp hcov)
  have htail : Tail room p (room.join now p userId username canWrite).1.seq [] := by
    refine ⟨fun f hf => (nomatch hf), ?_⟩
    rw [flatMap_nil, eq_comm, filter_eq_nil_iff]
    intro o ho hafter
    rw [Bool.and_eq_true, decide_eq_true_eq] at hafter
    have hlt : room.seq < o.seq := hafter.1
    have hle := hin o ho
    omega
  have hline : Line room p reach [.welcome (room.join now p userId username canWrite).1] := ⟨hgreets, htail⟩
  exact hline.of_same rfl rfl rfl

end Line

end LibreServ.Collab
