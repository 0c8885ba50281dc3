import LibreServ.Collab

/-! Who may upload a file that several people edit. The one who was granted the election keeps it until it leaves,
reports its save, has its user's file landed, or five minutes have passed. -/

namespace LibreServ.Collab

open List Option Table Hub
open Files (Text)

variable {J : Type} {bytes : J → Nat} {key : Text} {p : Nat} {user : Text} {t : Nat}

/-- The answer to a request for the election that was granted. -/
def granted : Reply J := .answer (some (.saveLock true))

/-- The calls that end the election of a peer. -/
def Releases (key : Text) (p : Nat) (user : Text) : Call J → Prop
  | .leave key' p' => key' = key ∧ p' = p
  | .handle key' p' _ .saveEnd => key' = key ∧ p' = p
  | .handle key' p' _ (.saved _ _) => key' = key ∧ p' = p
  | .fileLanded key' user' _ => key' = key ∧ user' = user
  | _ => False

/-- The peer is in the room and has the election since some time not before `t`. -/
def Room.HeldBy (room : Room J) (p : Nat) (user : Text) (t : Nat) : Prop :=
  (∃ info, room.peers.get? p = some info ∧ info.userId = user) ∧ ∃ since ≥ t, room.saveHolder = some (p, since)

structure Hub.Elected (h : Hub J) (key : Text) (p : Nat) (user : Text) (t : Nat) : Prop where
  room : ∃ room, h.rooms.get? key = some room ∧ room.HeldBy p user t
  /-- Numbers are not given twice. -/
  known : p < h.peerSeq

section Room

variable {room : Room J}

/-- Only the peers and the election matter. -/
theorem Room.HeldBy.of_same {room' : Room J} (h : room.HeldBy p user t) (hpeers : room'.peers = room.peers)
    (hholder : room'.saveHolder = room.saveHolder) : room'.HeldBy p user t := by
  unfold HeldBy
  rw [hpeers, hholder]
  exact h

section

variable (h : room.HeldBy p user t)
include h

theorem Room.HeldBy.releaseHolderPeer {q : Nat} (hq : q ≠ p) : (room.releaseHolderPeer q).HeldBy p user t := by
  have hheld := h
  obtain ⟨-, since, -, hholder⟩ := h
  have hother : ¬ (room.saveHolder.any fun holder => holder.1 = q) = true := by
    rw [hholder, any_some, decide_eq_true_eq]
    exact fun heq => hq heq.symm
  unfold Room.releaseHolderPeer
  rw [if_neg hother]
  exact hheld

theorem Room.HeldBy.releaseHolderUser {user' : Text} (huser : user' ≠ user) :
    (room.releaseHolderUser user').HeldBy p user t := by
  have hheld := h
  obtain ⟨⟨info, hinfo, hsame⟩, since, -, hholder⟩ := h
  unfold Room.releaseHolderUser
  rw [hholder]
  simp only [hinfo, any_some, decide_eq_true_eq]
  rw [if_neg fun heq => huser (heq.symm.trans hsame)]
  exact hheld

theorem Room.HeldBy.compacted (coverage : Option Nat) : (match coverage with
      | some seq => room.compactBacklog seq
      | none => room).HeldBy p user t := by
  cases coverage with
  | none => exact h
  | some seq => exact h.of_same rfl rfl

/-- Whoever asks: the holder keeps the election, others are refused until it has run out. -/
theorem Room.HeldBy.grantSaveLock {now : Nat} (hnow : t ≤ now) (hsoon : now < t + saveLockTtl)
    (q : Nat) (canWrite : Bool) :
    (room.grantSaveLock now q canWrite).2.HeldBy p user t ∧
      (q ≠ p → (room.grantSaveLock now q canWrite).1 = .saveLock false) := by
  have hheld := h
  obtain ⟨hpeer, since, hsince, hholder⟩ := h
  unfold Room.grantSaveLock
  split
  · exact ⟨hheld, fun _ => rfl⟩
  by_cases hq : q = p
  · split
    · exact ⟨hheld, fun hne => absurd hq hne⟩
    · exact ⟨⟨hpeer, now, hnow, by rw [hq]⟩, fun hne => absurd hq hne⟩
  have hblocked : (room.saveHolder.any fun holder => holder.1 ≠ q && now - holder.2 < saveLockTtl) = true := by
    rw [hholder, any_some]
    simp only [Bool.and_eq_true, decide_eq_true_eq]
    exact ⟨fun heq => hq heq.symm, by omega⟩
  rw [if_pos hblocked]
  exact ⟨hheld, fun _ => rfl⟩

theorem Room.HeldBy.join (now q : Nat) (hq : p ≠ q) (userId username : Text) (canWrite : Bool) :
    (room.join now q userId username canWrite).2.HeldBy p user t := by
  obtain ⟨⟨info, hinfo, huser⟩, hholder⟩ := h
  refine ⟨⟨info, ?_, huser⟩, hholder⟩
  show (room.peers.put q _).get? p = some info
  rw [get?_put_of_ne _ _ hq, hinfo]

theorem Room.HeldBy.leave (now : Nat) {q : Nat} (hq : q ≠ p) : (room.leave now q).HeldBy p user t := by
  have hleft : Room.HeldBy { room with peers := room.peers.erase q } p user t := by
    obtain ⟨⟨info, hinfo, huser⟩, hholder⟩ := h
    refine ⟨⟨info, ?_, huser⟩, hholder⟩
    rw [get?_erase, if_neg hq.symm, hinfo]
  exact (hleft.releaseHolderPeer hq).of_same rfl rfl

theorem Room.HeldBy.handle {now : Nat} (hnow : t ≤ now) (hsoon : now < t + saveLockTtl)
    {q : Nat} {canWrite : Bool} {msg : ClientMsg J} (hmsg : ¬ Releases key p user (.handle key q canWrite msg)) :
    (room.handle bytes now q canWrite msg).2.HeldBy p user t := by
  have hquiet : Room.HeldBy { room with lastEvent := now } p user t := h.of_same rfl rfl
  unfold Room.handle
  cases msg with
  | hello clientId displayName | ping => exact hquiet
  | presence cursor => exact hquiet.of_same rfl rfl
  | saveLock => exact (hquiet.grantSaveLock hnow hsoon q canWrite).1
  | saveEnd => exact hquiet.releaseHolderPeer fun hq => hmsg ⟨rfl, hq⟩
  | op payload =>
    simp only
    split
    · exact hquiet
    · split
      · exact hquiet
      · exact h.of_same rfl rfl
  | saved size seq =>
    simp only
    split
    · exact hquiet
    · have hreleased := (hquiet.compacted seq).releaseHolderPeer (q := q) fun hq => hmsg ⟨rfl, hq⟩
      exact hreleased.of_same rfl rfl

theorem Room.HeldBy.fileLanded (now : Nat) {user' : Text} (huser : user' ≠ user)
    (coverage : Option Nat) : (room.fileLanded now user' coverage).HeldBy p user t :=
  ((h.compacted coverage).releaseHolderUser huser).of_same rfl rfl

end

end Room

/-! ### All calls -/

section Calls

variable {h : Hub J} {now : Nat} {c : Call J}

theorem Hub.Elected.change {key' : Text} {f : Room J → Room J} (he : h.Elected key p user t)
    (hf : key' = key → ∀ room : Room J, room.HeldBy p user t → (f room).HeldBy p user t) :
    (h.change key' f).Elected key p user t := by
  obtain ⟨⟨room, hroom, hheld⟩, hknown⟩ := he
  unfold Hub.change
  split
  · exact ⟨⟨room, hroom, hheld⟩, hknown⟩
  rename_i room' hroom'
  refine ⟨?_, hknown⟩
  by_cases hkey : key = key'
  · obtain rfl := some.inj (hroom.symm.trans (hkey ▸ hroom'))
    exact ⟨f room, by rw [hkey, get?_put_self], hf hkey.symm room hheld⟩
  · exact ⟨room, by rw [get?_put_of_ne _ _ hkey, hroom], hheld⟩

theorem Hub.handle_eq (h : Hub J) (now : Nat) (key : Text) (q : Nat) (canWrite : Bool) (msg : ClientMsg J) :
    (h.handle bytes now key q canWrite msg).2 =
      h.change key fun room => (room.handle bytes now q canWrite msg).2 := by
  unfold handle change
  split
  · rfl
  · rfl

variable (he : h.Elected key p user t)

include he

/-- No other call ends the election before its time. -/
theorem Hub.Elected.step (hnow : t ≤ now) (hsoon : now < t + saveLockTtl)
    (hc : ¬ Releases key p user c) : (h.step bytes now c).2.Elected key p user t := by
  cases c with
  | leave key' q => exact he.change fun hkey room hroom => hroom.leave now fun hq => hc ⟨hkey, hq⟩
  | fileLanded key' user' coverage =>
    exact he.change fun hkey room hroom => hroom.fileLanded now (fun huser => hc ⟨hkey, huser⟩) coverage
  | handle key' q canWrite msg =>
    show (h.handle bytes now key' q canWrite msg).2.Elected key p user t
    rw [handle_eq]
    refine he.change fun hkey room hroom => ?_
    have hmsg : ¬ Releases key p user (.handle key q canWrite msg) := hkey ▸ hc
    exact hroom.handle hnow hsoon hmsg
  | evictIdle =>
    -- The holder is in the room, so the room is not empty.
    obtain ⟨⟨room, hroom, hheld⟩, hknown⟩ := he
    refine ⟨⟨room, ?_, hheld⟩, hknown⟩
    obtain ⟨⟨info, hinfo, -⟩, -⟩ := hheld
    have hpeers : room.peers.rows ≠ [] := fun hnone => not_mem_nil (hnone ▸ mem_rows.mpr hinfo)
    show (h.rooms.keep _).get? key = some room
    rw [Table.get?_keep, hroom]
    simp [hpeers]
  | join key' user' username canWrite =>
    obtain ⟨⟨room, hroom, hheld⟩, hknown⟩ := he
    show (h.join now key' user' username canWrite).2.Elected key p user t
    unfold join
    simp only
    split
    · exact ⟨⟨room, hroom, hheld⟩, hknown⟩
    split
    · exact ⟨⟨room, hroom, hheld⟩, hknown⟩
    refine ⟨?_, Nat.lt_succ_of_lt hknown⟩
    by_cases hkey : key = key'
    · refine ⟨_, by rw [hkey, get?_put_self], ?_⟩
      rw [← hkey, hroom]
      exact hheld.join now h.peerSeq hknown.ne user' username canWrite
    · exact ⟨room, by rw [get?_put_of_ne _ _ hkey, hroom], hheld⟩

theorem Hub.Elected.run {calls : List (Nat × Call J)}
    (hnow : ∀ c ∈ calls, t ≤ c.1 ∧ c.1 < t + saveLockTtl) (hc : ∀ c ∈ calls, ¬ Releases key p user c.2) :
    (Hub.run bytes calls h).Elected key p user t := by
  induction calls generalizing h with
  | nil => exact he
  | cons c rest ih =>
    have hfirst := hnow c mem_cons_self
    exact ih (he.step hfirst.1 hfirst.2 (hc c mem_cons_self))
      (fun c' hc' => hnow c' (mem_cons_of_mem _ hc')) fun c' hc' => hc c' (mem_cons_of_mem _ hc')

/-- While it lasts, nobody else is granted. -/
theorem Hub.Elected.refuses (hnow : t ≤ now) (hsoon : now < t + saveLockTtl) {q : Nat}
    (hq : q ≠ p) (canWrite : Bool) : (h.step bytes now (.handle key q canWrite .saveLock)).1 ≠ granted := by
  obtain ⟨⟨room, hroom, hheld⟩, -⟩ := he
  have hquiet : Room.HeldBy { room with lastEvent := now } p user t := hheld.of_same rfl rfl
  have hanswer := (hquiet.grantSaveLock hnow hsoon q canWrite).2 hq
  intro hgranted
  unfold Hub.step handle at hgranted
  simp only [hroom] at hgranted
  unfold Room.handle at hgranted
  simp only [hanswer] at hgranted
  cases hgranted

end Calls

/-! ### Numbers of peers -/

section Numbers

variable {room : Room J} {h : Hub J}

theorem peers_releaseHolderPeer (q : Nat) : (room.releaseHolderPeer q).peers = room.peers := by
  unfold Room.releaseHolderPeer
  split
  · rfl
  · rfl

theorem peers_releaseHolderUser (user : Text) : (room.releaseHolderUser user).peers = room.peers := by
  unfold Room.releaseHolderUser
  split
  · rfl
  · split
    · rfl
    · rfl

theorem peers_compacted (coverage : Option Nat) :
    (match coverage with
      | some seq => room.compactBacklog seq
      | none => room).peers = room.peers := by
  cases coverage with
  | none | some seq => rfl

theorem peers_handle (now q : Nat) (canWrite : Bool) (msg : ClientMsg J) :
    (room.handle bytes now q canWrite msg).2.peers = room.peers := by
  unfold Room.handle
  cases msg with
  | hello clientId displayName | ping | presence cursor => rfl
  | saveEnd => exact peers_releaseHolderPeer q
  | saveLock =>
    simp only
    unfold Room.grantSaveLock
    split
    · rfl
    · split
      · rfl
      · rfl
  | op payload =>
    simp only
    split
    · rfl
    · split
      · rfl
      · rfl
  | saved size seq =>
    simp only
    split
    · rfl
    · exact (peers_releaseHolderPeer q).trans (peers_compacted seq)

theorem peers_fileLanded (now : Nat) (user : Text) (coverage : Option Nat) :
    (room.fileLanded now user coverage).peers = room.peers :=
  (peers_releaseHolderUser user).trans (peers_compacted coverage)

theorem peers_leave (now q : Nat) : (room.leave now q).peers = room.peers.erase q :=
  (peers_releaseHolderPeer q)

/-- Peers have numbers that were given before. -/
def Hub.Numbered (h : Hub J) : Prop :=
  ∀ key room, h.rooms.get? key = some room → ∀ q info, room.peers.get? q = some info → q < h.peerSeq

variable (hn : h.Numbered)

include hn

theorem Hub.Numbered.change {key : Text} {f : Room J → Room J}
    (hf : ∀ (room : Room J) q info, (f room).peers.get? q = some info → room.peers.get? q = some info) :
    (h.change key f).Numbered := by
  unfold Hub.change
  split
  · exact hn
  · rename_i room hroom
    intro key' room' hget q info hinfo
    rcases get?_put_some.mp hget with ⟨-, rfl⟩ | ⟨-, hget⟩
    · exact hn key room hroom q info (hf room q info hinfo)
    · exact hn key' room' hget q info hinfo

theorem Hub.Numbered.step (now : Nat) (c : Call J) : (h.step bytes now c).2.Numbered := by
  cases c with
  | leave key p =>
    refine hn.change fun room q info hinfo => ?_
    rw [peers_leave] at hinfo
    obtain ⟨-, hinfo⟩ := get?_erase_some.mp hinfo
    exact hinfo
  | fileLanded key user coverage =>
    refine hn.change fun room q info hinfo => ?_
    rwa [peers_fileLanded] at hinfo
  | handle key p canWrite msg =>
    show (h.handle bytes now key p canWrite msg).2.Numbered
    rw [handle_eq]
    refine hn.change fun room q info hinfo => ?_
    rwa [peers_handle] at hinfo
  | evictIdle =>
    intro key room hget q info hinfo
    refine hn key room ?_ q info hinfo
    have hkept : (h.rooms.keep _).get? key = some room := hget
    exact (get?_keep_some.mp hkept).1
  | join key user username canWrite =>
    show (h.join now key user username canWrite).2.Numbered
    unfold join
    simp only
    split
    · exact hn
    split
    · exact hn
    intro key' room' hget q info hinfo
    rcases get?_put_some.mp hget with ⟨-, rfl⟩ | ⟨-, hget⟩
    · have hput : (Table.put _ h.peerSeq _).get? q = some info := hinfo
      rw [get?_put] at hput
      split at hput
      · rename_i hq
        rw [hq]
        exact Nat.lt_succ_self _
      refine Nat.lt_succ_of_lt ?_
      cases hroom : h.rooms.get? key with
      | none =>
        rw [hroom] at hput
        cases hput
      | some room =>
        rw [hroom] at hput
        exact hn key room hroom q info hput
    · exact Nat.lt_succ_of_lt (hn key' room' hget q info hinfo)

theorem Hub.Numbered.run (calls : List (Nat × Call J)) : (Hub.run bytes calls h).Numbered := by
  induction calls generalizing h with
  | nil => exact hn
  | cons c rest ih => exact ih (hn.step c.1 c.2)

end Numbers

/-- What it means that a request was granted. -/
theorem Hub.elected_of_granted {h : Hub J} (hn : h.Numbered) {room : Room J} {info : PeerInfo} {canWrite : Bool}
    (hroom : h.rooms.get? key = some room) (hpeer : room.peers.get? p = some info)
    (hgrant : (h.step bytes t (.handle key p canWrite .saveLock)).1 = granted) :
    (h.step bytes t (.handle key p canWrite .saveLock)).2.Elected key p info.userId t := by
  unfold Hub.step handle at hgrant ⊢
  simp only [hroom] at hgrant ⊢
  refine ⟨⟨_, get?_put_self _ _ _, ⟨info, ?_, rfl⟩, t, le_rfl, ?_⟩, hn key room hroom p info hpeer⟩
  · rw [peers_handle, hpeer]
  · unfold Room.handle Room.grantSaveLock at hgrant ⊢
    simp only at hgrant ⊢
    split at hgrant
    · cases hgrant
    · split at hgrant
      · cases hgrant
      · rename_i hwrite hfree
        rw [if_neg hwrite, if_neg hfree]

/-- **One upload at a time.** After any calls, a peer in the room that was granted the election at time `t`, and has
since neither left nor sent `save_end` or `saved`, and whose user's file has not landed since, is alone with it until
`t + SAVE_LOCK_TTL`; and whoever may not write is never granted. -/
theorem one_saver_at_a_time (bytes : J → Nat) (before calls : List (Nat × Call J)) (key : Text) (p q t now : Nat)
    (canWrite canWrite' : Bool) (room : Room J) (info : PeerInfo)
    (hroom : (Hub.run bytes before empty).rooms.get? key = some room) (hpeer : room.peers.get? p = some info)
    (hgrant : ((Hub.run bytes before empty).step bytes t (.handle key p canWrite .saveLock)).1 = granted)
    (hcalls : ∀ c ∈ calls, ¬ Releases key p info.userId c.2)
    (htimes : (t :: calls.map Prod.fst ++ [now]).Pairwise (· ≤ ·)) (hsoon : now < t + saveLockTtl) (hq : q ≠ p) :
    ((Hub.run bytes calls ((Hub.run bytes before empty).step bytes t (.handle key p canWrite .saveLock)).2).step
        bytes now (.handle key q canWrite' .saveLock)).1 ≠ granted ∧
      ∀ (h : Hub J) now' q', (h.step bytes now' (.handle key q' false .saveLock)).1 ≠ granted := by
  constructor
  · have hnumbered : (empty : Hub J).Numbered := fun _ _ hget => (nomatch hget)
    have helected := elected_of_granted (hnumbered.run before) hroom hpeer hgrant
    rw [cons_append, pairwise_cons, pairwise_append] at htimes
    obtain ⟨hstart, -, -, hend⟩ := htimes
    have hnow : ∀ c ∈ calls, t ≤ c.1 ∧ c.1 < t + saveLockTtl := by
      intro c hc
      have hmem : c.1 ∈ calls.map Prod.fst := mem_map_of_mem hc
      have hlast := hend c.1 hmem now mem_cons_self
      exact ⟨hstart c.1 (mem_append_left _ hmem), by omega⟩
    exact (helected.run hnow hcalls).refuses (hstart now (mem_append_right _ mem_cons_self)) hsoon hq canWrite'
  · intro h now' q' hgranted
    unfold Hub.step handle at hgranted
    simp only at hgranted
    split at hgranted
    · cases hgranted
    · cases hgranted

/-- Two people in one room. -/
def twoJoin : List (Nat × Call Unit) := [(0, .join ['k'] ['u'] ['u'] true), (0, .join ['k'] ['v'] ['v'] true)]

theorem one_saver_of_two : ((Hub.run (fun _ => 0) [] ((Hub.run (fun _ => 0) twoJoin empty).step (fun _ => 0) 1
      (.handle ['k'] 1 true .saveLock)).2).step (fun _ => 0) 2 (.handle ['k'] 2 true .saveLock)).1 ≠ granted :=
  (one_saver_at_a_time (fun _ => 0) twoJoin [] ['k'] 1 2 1 2 true true _ _ rfl rfl rfl (by simp) (by decide)
    (by decide) (by decide)).1

/-- The first one's file lands, from whatever session of that user, and the second is granted within a second. -/
theorem landed_file_ends_election : ∃ before calls : List (Nat × Call Unit),
      ((Hub.run (fun _ => 0) before empty).step (fun _ => 0) 0 (.handle ['k'] 1 true .saveLock)).1 = granted ∧
      (∀ c ∈ calls, ∀ canWrite size seq, c.2 ≠ .leave ['k'] 1 ∧ c.2 ≠ .handle ['k'] 1 canWrite .saveEnd ∧
        c.2 ≠ .handle ['k'] 1 canWrite (.saved size seq)) ∧
      1 < 0 + saveLockTtl ∧
      ((Hub.run (fun _ => 0) calls ((Hub.run (fun _ => 0) before empty).step (fun _ => 0) 0
        (.handle ['k'] 1 true .saveLock)).2).step (fun _ => 0) 1 (.handle ['k'] 2 true .saveLock)).1 = granted := by
  refine ⟨twoJoin, [(1, .fileLanded ['k'] ['u'] none)], rfl, ?_, by decide, rfl⟩
  intro c hc canWrite size seq
  rw [mem_singleton.mp hc]
  exact ⟨nofun, nofun, nofun⟩

end LibreServ.Collab
