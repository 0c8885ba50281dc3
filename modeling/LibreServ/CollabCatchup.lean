import LibreServ.Collab

/-! What a newcomer to a room gets. The edits of a room are numbered without a gap; the backlog is their tail, cut by
the largest coverage and by its own length; a receiver has the tail it was welcomed with and everything after it. -/

namespace LibreServ.Collab

open List Option Table
open Files (Text)

variable {J : Type} {room : Room J}

def ServerEvent.isOp : ServerEvent J → Bool
  | .op _ => true
  | _ => false

/-! ### Numbered lists -/

/-- Numbered without a gap, so a bound on the number is a bound on the place. -/
theorem filter_seq {ops : List (Op J)} {a n : Nat} (h : ops.map Op.seq = List.range' (a + 1) n) (b : Nat) :
    ops.filter (fun o => b < o.seq) = ops.drop (b - a) := by
  induction ops generalizing a n with
  | nil => simp
  | cons o rest ih =>
    cases n with
    | zero => simp at h
    | succ n =>
      rw [range'_succ, map_cons, cons.injEq] at h
      have hrest := ih h.2
      by_cases hb : b < o.seq
      · rw [filter_cons_of_pos (by simpa using hb), hrest]
        have hzero : b - a = 0 := by omega
        have hzero' : b - (a + 1) = 0 := by omega
        rw [hzero, hzero', drop_zero, drop_zero]
      · rw [filter_cons_of_neg (by simpa using hb), hrest]
        have hsucc : b - a = b - (a + 1) + 1 := by omega
        rw [hsucc, drop_succ_cons]

theorem drop_numbers {ops : List (Op J)} {n : Nat} (h : ops.map Op.seq = List.range' 1 n) (k : Nat) :
    (ops.drop k).map Op.seq = List.range' (k + 1) (n - k) := by
  rw [map_drop, h]
  simp [Nat.add_comm]

/-- A tail that is cut to a length again when something is added to it. -/
theorem drop_concat {α : Type} (ops : List α) (o : α) (cap : Nat) {covered : Nat} (hcap : 0 < cap)
    (hcovered : covered ≤ ops.length) :
    (ops.drop (max covered (ops.length - cap)) ++ [o]).drop
        ((ops.drop (max covered (ops.length - cap)) ++ [o]).length - cap) =
      (ops ++ [o]).drop (max covered (ops.length + 1 - cap)) := by
  have hlength : (ops.drop (max covered (ops.length - cap)) ++ [o]).length - cap =
      ops.length - max covered (ops.length - cap) + 1 - cap := by
    rw [length_append, length_drop, length_singleton]
  have htail : ops.drop (max covered (ops.length - cap)) ++ [o] = (ops ++ [o]).drop (max covered (ops.length - cap)) :=
    (drop_append_of_le_length (by omega)).symm
  rw [hlength, htail, drop_drop]
  congr 1
  omega

/-! ### The invariant -/

/-- A receiver has a tail of the edits up to its welcome and every edit since. -/
def Follows (room : Room J) (rc : Receiver J) : Prop :=
  rc.welcome.seq ≤ room.seq ∧
    rc.received.filter ServerEvent.isOp = (room.accepted.drop rc.welcome.seq).map .op ∧
    ∃ start ≤ rc.welcome.seq, rc.welcome.catchup = ((room.accepted.take rc.welcome.seq).drop start).map .op

structure Steady (room : Room J) : Prop where
  numbers : room.accepted.map Op.seq = List.range' 1 room.seq
  covered : room.covered ≤ room.seq
  backlog : room.backlog = (room.accepted.drop (max room.covered (room.seq - opBacklog))).map .op
  receivers : ∀ id rc, room.receivers.get? id = some rc → Follows room rc

theorem Steady.length (h : Steady room) : room.accepted.length = room.seq := by
  have hlen := congrArg List.length h.numbers
  rwa [length_map, length_range'] at hlen

theorem steady_fresh (now : Nat) : Steady (Room.fresh now : Room J) where
  numbers := rfl
  covered := le_rfl
  backlog := drop_nil.symm ▸ rfl
  receivers _ _ h := (nomatch h)

/-- Nothing that the invariant speaks of has changed. -/
theorem Steady.of_same {room' : Room J} (h : Steady room) (haccepted : room'.accepted = room.accepted)
    (hseq : room'.seq = room.seq) (hbacklog : room'.backlog = room.backlog) (hcovered : room'.covered = room.covered)
    (hreceivers : room'.receivers = room.receivers) : Steady room' := by
  refine ⟨?_, ?_, ?_, fun id rc hrc => ?_⟩
  · rw [haccepted, hseq, h.numbers]
  · rw [hcovered, hseq]
    exact h.covered
  · rw [hbacklog, haccepted, hcovered, hseq, h.backlog]
  · rw [hreceivers] at hrc
    have hfollows := h.receivers id rc hrc
    rwa [Follows, haccepted, hseq]

section

variable (h : Steady room)
include h

/-- Everything but edits can be sent at any time. -/
theorem Steady.send {e : ServerEvent J} (he : e.isOp = false) : Steady (room.send e) := by
  refine ⟨h.numbers, h.covered, h.backlog, fun id rc hrc => ?_⟩
  rw [Room.send, get?_update, map_eq_some_iff] at hrc
  obtain ⟨rc', hrc', rfl⟩ := hrc
  obtain ⟨hseq, hreceived, hcatchup⟩ := h.receivers id rc' hrc'
  refine ⟨hseq, ?_, hcatchup⟩
  rw [filter_append, hreceived]
  simp [he, Room.send]

theorem Steady.releaseHolderPeer (peerId : Nat) : Steady (room.releaseHolderPeer peerId) := by
  unfold Room.releaseHolderPeer
  split
  · exact h.of_same rfl rfl rfl rfl rfl
  · exact h

theorem Steady.releaseHolderUser (userId : Text) : Steady (room.releaseHolderUser userId) := by
  unfold Room.releaseHolderUser
  split
  · exact h
  · split
    · exact h.of_same rfl rfl rfl rfl rfl
    · exact h

theorem Steady.compactBacklog (coverage : Nat) : Steady (room.compactBacklog coverage) := by
  have hnumbers := drop_numbers h.numbers (max room.covered (room.seq - opBacklog))
  have hcovered := h.covered
  refine ⟨h.numbers, ?_, ?_, h.receivers⟩
  · show max room.covered (min coverage room.seq) ≤ room.seq
    omega
  · show room.backlog.filter _ = _
    rw [h.backlog, List.filter_map]
    have hfilter := filter_seq hnumbers (min coverage room.seq)
    rw [drop_drop] at hfilter
    refine congrArg (map ServerEvent.op) (hfilter.trans ?_)
    show room.accepted.drop _ = room.accepted.drop (max (max room.covered (min coverage room.seq)) (room.seq - opBacklog))
    congr 1
    omega

/-- An edit is numbered, kept and sent. -/
theorem Steady.accept (peerId : Nat) (payload : J) : Steady (Room.send { room with
      seq := room.seq + 1
      backlog := Room.pushBacklog room.backlog (.op ⟨room.seq + 1, peerId, payload⟩)
      accepted := room.accepted ++ [⟨room.seq + 1, peerId, payload⟩] } (.op ⟨room.seq + 1, peerId, payload⟩)) := by
  have hlength := h.length
  have hcovered := h.covered
  refine ⟨?_, ?_, ?_, fun id rc hrc => ?_⟩
  · show (room.accepted ++ [_]).map Op.seq = List.range' 1 (room.seq + 1)
    rw [map_append, h.numbers, range'_concat, Nat.one_mul, Nat.add_comm 1]
    rfl
  · show room.covered ≤ room.seq + 1
    omega
  · have hcut := drop_concat room.accepted ⟨room.seq + 1, peerId, payload⟩ opBacklog (by decide) (hlength ▸ hcovered)
    rw [hlength] at hcut
    refine Eq.trans ?_ (congrArg (map ServerEvent.op) hcut)
    rw [map_drop, map_append]
    simp only [Room.send, Room.pushBacklog, h.backlog, map_cons, map_nil, length_append, length_map, length_singleton]
  · rw [Room.send, get?_update, map_eq_some_iff] at hrc
    obtain ⟨rc', hrc', rfl⟩ := hrc
    obtain ⟨hseq, hreceived, start, hstart, hcatchup⟩ := h.receivers id rc' hrc'
    refine ⟨Nat.le_succ_of_le hseq, ?_, start, hstart, ?_⟩
    · rw [filter_append, hreceived]
      show _ = map _ ((room.accepted ++ [_]).drop rc'.welcome.seq)
      rw [drop_append_of_le_length (by omega), map_append]
      rfl
    · show rc'.welcome.catchup = map _ (((room.accepted ++ [_]).take rc'.welcome.seq).drop start)
      rw [take_append_of_le_length (by omega), hcatchup]

/-- A newcomer gets the backlog. -/
theorem Steady.join (now peerId : Nat) (userId username : Text) (canWrite : Bool) :
    Steady (room.join now peerId userId username canWrite).2 := by
  apply Steady.send
  on_goal 2 => rfl
  refine ⟨h.numbers, h.covered, h.backlog, fun id rc hrc => ?_⟩
  rcases get?_put_some.mp hrc with ⟨-, rfl⟩ | ⟨-, hrc⟩
  · have hlength := h.length
    have hcovered := h.covered
    have hall : room.accepted.take room.seq = room.accepted := take_of_length_le hlength.le
    refine ⟨le_rfl, ?_, max room.covered (room.seq - opBacklog), ?_, ?_⟩
    · rw [drop_of_length_le hlength.le]
      rfl
    · show max room.covered (room.seq - opBacklog) ≤ room.seq
      omega
    · rw [hall, h.backlog]
  · exact h.receivers id rc hrc

theorem Steady.leave (now peerId : Nat) : Steady (room.leave now peerId) := by
  have hleft : Steady { room with peers := room.peers.erase peerId } := h.of_same rfl rfl rfl rfl rfl
  have hreleased := hleft.releaseHolderPeer peerId
  apply Steady.send
  · exact hreleased.of_same rfl rfl rfl rfl rfl
  · rfl

theorem Steady.grantSaveLock (now peerId : Nat) (canWrite : Bool) :
    Steady (room.grantSaveLock now peerId canWrite).2 := by
  unfold Room.grantSaveLock
  split
  · exact h
  · split
    · exact h
    · exact h.of_same rfl rfl rfl rfl rfl

theorem Steady.compacted (coverage : Option Nat) : Steady (match coverage with
      | some seq => room.compactBacklog seq
      | none => room) := by
  cases coverage with
  | none => exact h
  | some seq => exact h.compactBacklog seq

theorem Steady.handle (bytes : J → Nat) (now peerId : Nat) (canWrite : Bool) (msg : ClientMsg J) :
    Steady (room.handle bytes now peerId canWrite msg).2 := by
  have hnow : Steady { room with lastEvent := now } := h.of_same rfl rfl rfl rfl rfl
  unfold Room.handle
  cases msg with
  | hello clientId displayName | ping => exact hnow
  | presence cursor => exact hnow.send rfl
  | saveLock => exact hnow.grantSaveLock now peerId canWrite
  | saveEnd => exact hnow.releaseHolderPeer peerId
  | op payload =>
    simp only
    split
    · exact hnow
    · split
      · exact hnow
      · exact hnow.accept peerId payload
  | saved size seq =>
    simp only
    split
    · exact hnow
    · exact ((hnow.compacted seq).releaseHolderPeer peerId).send rfl

theorem Steady.fileLanded (now : Nat) (userId : Text) (coverage : Option Nat) :
    Steady (room.fileLanded now userId coverage) :=
  ((h.compacted coverage).releaseHolderUser userId).of_same rfl rfl rfl rfl rfl

end

/-! ### All rooms -/

def AllSteady (h : Hub J) : Prop := ∀ key room, h.rooms.get? key = some room → Steady room

section Runs

variable {h : Hub J} {bytes : J → Nat}

variable (hall : AllSteady h)

include hall

theorem AllSteady.put {key : Text} (hroom : Steady room) (n : Nat) :
    AllSteady ⟨h.rooms.put key room, n⟩ := by
  intro key' room' hget
  rw [get?_put] at hget
  split at hget
  · exact some.inj hget ▸ hroom
  · exact hall key' room' hget

theorem AllSteady.change {key : Text} {f : Room J → Room J} (hf : ∀ room, Steady room → Steady (f room)) :
    AllSteady (h.change key f) := by
  unfold Hub.change
  split
  · exact hall
  · rename_i room hroom
    exact hall.put (hf room (hall key room hroom)) h.peerSeq

theorem AllSteady.step (now : Nat) (c : Call J) : AllSteady (h.step bytes now c).2 := by
  cases c with
  | leave key peerId => exact hall.change fun room hroom => hroom.leave now peerId
  | fileLanded key userId coverage => exact hall.change fun room hroom => hroom.fileLanded now userId coverage
  | evictIdle =>
    intro key room hget
    refine hall key room ?_
    rw [Hub.step, Hub.evictIdle, Table.get?_keep, filter_eq_some_iff] at hget
    exact hget.1
  | handle key peerId canWrite msg =>
    unfold Hub.step Hub.handle
    simp only
    split
    · exact hall
    · rename_i room hroom
      exact hall.put ((hall key room hroom).handle bytes now peerId canWrite msg) h.peerSeq
  | join key userId username canWrite =>
    unfold Hub.step Hub.join
    simp only
    split
    · exact hall
    split
    · exact hall
    · refine hall.put (Steady.join ?_ now h.peerSeq userId username canWrite) (h.peerSeq + 1)
      cases hroom : h.rooms.get? key with
      | none => exact steady_fresh now
      | some room => exact hall key room hroom

theorem AllSteady.run (calls : List (Nat × Call J)) : AllSteady (Hub.run bytes calls h) := by
  induction calls generalizing h with
  | nil => exact hall
  | cons c rest ih => exact ih (hall.step c.1 c.2)

end Runs

/-- In every room that any calls lead to: the backlog is, in order, the edits above the largest coverage among the
latest 256; a newcomer is welcomed with it; and what a receiver was welcomed with, followed by the edits sent to it,
is one tail of the room's edits, numbered up to the latest without a gap. -/
theorem catchup_without_gap (bytes : J → Nat) (calls : List (Nat × Call J)) (key : Text) (room : Room J)
    (hroom : (Hub.run bytes calls Hub.empty).rooms.get? key = some room) :
    (∃ ops : List (Op J), room.backlog = ops.map .op ∧ (ops.map Op.seq).Pairwise (· < ·) ∧ ∀ o ∈ ops, o.seq ≤ room.seq) ∧
    room.accepted.map Op.seq = List.range' 1 room.seq ∧
    (∀ now userId username canWrite peerId welcome,
      ((Hub.run bytes calls Hub.empty).join now key userId username canWrite).1 = .joined peerId welcome →
        welcome.catchup =
          (room.accepted.filter fun o => room.covered < o.seq ∧ room.seq - opBacklog < o.seq).map .op) ∧
    ∀ id rc, room.receivers.get? id = some rc → ∃ start,
      rc.welcome.catchup ++ rc.received.filter ServerEvent.isOp = (room.accepted.drop start).map .op ∧
        (room.accepted.drop start).map Op.seq = List.range' (start + 1) (room.seq - start) := by
  have hempty : AllSteady (Hub.empty : Hub J) := fun _ _ hget => (nomatch hget)
  have hsteady : Steady room := hempty.run calls key room hroom
  have hlength := hsteady.length
  refine ⟨?_, hsteady.numbers, fun now userId username canWrite peerId welcome hjoined => ?_, fun id rc hrc => ?_⟩
  · have htail := drop_numbers hsteady.numbers (max room.covered (room.seq - opBacklog))
    refine ⟨_, hsteady.backlog, ?_, fun o ho => ?_⟩
    · rw [htail]
      exact pairwise_lt_range'
    · have hmem : o.seq ∈ List.range' 1 room.seq := by
        rw [← hsteady.numbers]
        exact mem_map_of_mem (mem_of_mem_drop ho)
      have hle := mem_range'_1.mp hmem
      omega
  · have hcatchup : welcome.catchup = room.backlog := by
      rw [Hub.join, hroom] at hjoined
      simp only [isNone_some, Bool.false_eq_true, false_and, if_false] at hjoined
      split at hjoined
      · cases hjoined
      · rw [Reply.joined.injEq] at hjoined
        rw [← hjoined.2]
        rfl
    rw [hcatchup, hsteady.backlog]
    have hfilter := filter_seq (a := 0) hsteady.numbers (max room.covered (room.seq - opBacklog))
    rw [Nat.sub_zero] at hfilter
    rw [← hfilter]
    refine congrArg (map ServerEvent.op) (filter_congr fun o _ => ?_)
    rw [decide_eq_decide, Nat.max_lt]
  · obtain ⟨hseq, hreceived, start, hstart, hcatchup⟩ := hsteady.receivers id rc hrc
    refine ⟨start, ?_, drop_numbers hsteady.numbers start⟩
    rw [hcatchup, hreceived, ← map_append]
    congr 1
    calc (room.accepted.take rc.welcome.seq).drop start ++ room.accepted.drop rc.welcome.seq
        = (room.accepted.take rc.welcome.seq ++ room.accepted.drop rc.welcome.seq).drop start := by
          rw [drop_append_of_le_length (by rw [length_take]; omega)]
      _ = room.accepted.drop start := by rw [take_append_drop]

/-- One person joins and makes this many edits; nothing is saved. -/
def edits (n : Nat) : List (Nat × Call Unit) :=
  (0, .join ['k'] ['u'] ['u'] true) :: List.replicate n (0, .handle ['k'] 1 true (.op ()))

theorem catchup_without_gap_of_two_edits :
    ∃ room, (Hub.run (fun _ => 0) (edits 2) Hub.empty).rooms.get? ['k'] = some room ∧
      room.accepted.map Op.seq = List.range' 1 room.seq := by
  have hsome : ((Hub.run (fun _ => 0) (edits 2) Hub.empty).rooms.get? ['k']).isSome = true := by decide +kernel
  obtain ⟨room, hroom⟩ := isSome_iff_exists.mp hsome
  exact ⟨room, hroom, (catchup_without_gap _ _ _ room hroom).2.1⟩

/-- Of 257 edits that nobody saved, the first is not in the backlog. -/
theorem oldest_of_257_edits_missing :
    ∃ room peerId welcome, (Hub.run (fun _ => 0) (edits 257) Hub.empty).rooms.get? ['k'] = some room ∧
      ((Hub.run (fun _ => 0) (edits 257) Hub.empty).join 0 ['k'] ['v'] ['v'] true).1 = .joined peerId welcome ∧
        ∃ o ∈ room.accepted, room.covered < o.seq ∧ .op o ∉ welcome.catchup := by
  have hmissing : (((Hub.run (fun _ => 0) (edits 257) Hub.empty).rooms.get? ['k']).any fun room =>
      match ((Hub.run (fun _ => 0) (edits 257) Hub.empty).join 0 ['k'] ['v'] ['v'] true).1 with
      | .joined _ welcome => room.accepted.any fun o => room.covered < o.seq && .op o ∉ welcome.catchup
      | _ => false) = true := by decide +kernel
  obtain ⟨room, hroom, hmissing⟩ := (Option.any_eq_true _ _).mp hmissing
  split at hmissing
  · rename_i peerId welcome hjoined
    obtain ⟨o, ho, hboth⟩ := List.any_eq_true.mp hmissing
    rw [Bool.and_eq_true, decide_eq_true_eq, decide_eq_true_eq] at hboth
    exact ⟨room, peerId, welcome, hroom, hjoined, o, ho, hboth⟩
  · cases hmissing

end LibreServ.Collab
