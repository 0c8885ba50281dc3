import LibreServ.DiagramClients

/-! Patches are handed over once, and a client claims no patch it lacks, as long as nobody is sent what it sent itself,
acks do not overtake edits, nobody comes back with patches it was handed and did not confirm, nobody joins a room that
has lost edits, and a room is made anew only for clients that know no other. -/

namespace LibreServ.Diagram

open List Option Table World
open Files (Text)

open Collab (Wire ServerEvent ClientMsg Frame Op opsOf Room Line Steady)

variable {D : Type} {client : Client D}

/-! ### All clients -/

namespace World

structure Inv (w : World D) : Prop where
  sound : w.wire.Sound
  clients : ∀ c client, w.clients.get? c = some client → ∃ reach, client.OkAt w.wire reach
  given : ∀ c client p, w.clients.get? c = some client → client.session = some p → p < w.wire.peerSeq
  apart : ∀ c client c' client' p, w.clients.get? c = some client → w.clients.get? c' = some client' → c ≠ c' →
    client.session = some p → client'.session ≠ some p

section Steps

variable {fingerprint : Fingerprint D} {w : World D} {wire' : Wire (Payload D)}

section

variable (h : w.Inv)

include h

/-- One client changes, with the session it had or none, and the others do not care. -/
theorem Inv.put {c : Nat} {client₀ : Client D} (hget : w.clients.get? c = some client₀)
    (hsession : client.session = client₀.session ∨ client.session = none) (hsound : wire'.Sound)
    (hseq : wire'.peerSeq = w.wire.peerSeq) (hclient : ∃ reach, client.OkAt wire' reach)
    (hothers : ∀ (client' : Client D) (reach : Nat), (∀ p, client₀.session = some p → client'.session ≠ some p) →
      client'.OkAt w.wire reach → client'.OkAt wire' reach) : Inv ⟨w.clients.put c client, wire'⟩ := by
  have hold : ∀ p, client.session = some p → client₀.session = some p := by
    intro p hp
    rcases hsession with hsame | hnone
    · exact hsame.symm.trans hp
    · rw [hnone] at hp
      cases hp
  refine ⟨hsound, ?_, ?_, ?_⟩
  · intro c' client' hget'
    rcases get?_put_some.mp hget' with ⟨-, rfl⟩ | ⟨hne, hget'⟩
    · exact hclient
    · obtain ⟨reach, hok⟩ := h.clients c' client' hget'
      exact ⟨reach, hothers client' reach (h.apart c client₀ c' client' · hget hget' (Ne.symm hne)) hok⟩
  · intro c' client' p hget' hp
    rw [hseq]
    rcases get?_put_some.mp hget' with ⟨-, rfl⟩ | ⟨-, hget'⟩
    · exact h.given c client₀ p hget (hold p hp)
    · exact h.given c' client' p hget' hp
  · intro c₁ client₁ c₂ client₂ p hget₁ hget₂ hne hp
    rw [get?_put] at hget₁ hget₂
    split at hget₁
    · rename_i hc₁
      obtain rfl := some.inj hget₁
      rw [if_neg (fun hc₂ => hne (hc₁.trans hc₂.symm))] at hget₂
      exact h.apart c client₀ c₂ client₂ p hget hget₂ (hc₁ ▸ hne) (hold p hp)
    · split at hget₂
      · rename_i hc₁ hc₂
        obtain rfl := some.inj hget₂
        intro hp₂
        exact h.apart c₁ client₁ c client₀ p hget₁ hget hc₁ hp (hold p hp₂)
      · exact h.apart c₁ client₁ c₂ client₂ p hget₁ hget₂ hne hp

theorem Inv.rewire (hsound : wire'.Sound) (hseq : wire'.peerSeq = w.wire.peerSeq)
    (hclients : ∀ client reach, client.OkAt w.wire reach → Client.OkAt wire' client reach) :
    Inv { w with wire := wire' } where
  sound := hsound
  clients := by
    intro c client hget
    obtain ⟨reach, hok⟩ := h.clients c client hget
    exact ⟨reach, hclients client reach hok⟩
  given := by
    intro c client p hget hp
    rw [hseq]
    exact h.given c client p hget hp
  apart := h.apart

/-- The room moves on. -/
theorem Inv.moves {room room' : Room (Payload D)} {es : List (ServerEvent (Payload D))} (hsound : wire'.Sound)
    (hseq : wire'.peerSeq = w.wire.peerSeq) (hroom : w.wire.room = some room) (hroom' : wire'.room = some room') (hmoves : room.Moves room' es)
    (hsockets : ∀ p s', wire'.sockets.get? p = some s' → ∃ s, w.wire.sockets.get? p = some s ∧ s'.heard = s.heard) :
    Inv { w with wire := wire' } := by
  apply h.rewire hsound hseq
  intro client reach hok
  exact hok.moves h.sound hsound hroom hroom' hmoves hsockets

theorem Inv.serve (bytes : Payload D → Nat) (now p : Nat) (canWrite : Bool) :
    Inv { w with wire := w.wire.serve bytes now p canWrite } := by
  have hsound := h.sound.serve bytes now p canWrite
  unfold Wire.serve at hsound ⊢
  split
  · rename_i room msg rest answers heard hroom hsocket
    rw [hroom, hsocket] at hsound
    obtain ⟨es, hmoves⟩ := room.moves_handle bytes now p canWrite msg
    apply h.moves hsound rfl hroom rfl hmoves
    intro a s' hs'
    rcases get?_put_some.mp hs' with ⟨hap, rfl⟩ | ⟨-, hs'⟩
    · rw [hap]
      exact ⟨_, hsocket, rfl⟩
    · exact ⟨s', hs', rfl⟩
  · exact h

theorem Inv.leave (now p : Nat) : Inv { w with wire := w.wire.leave now p } := by
  have hsound := h.sound.leave now p
  cases hroom : w.wire.room with
  | none =>
    apply h.rewire hsound rfl
    intro client reach hok
    have hroom' : (w.wire.leave now p).room = none := by
      rw [Wire.leave, hroom]
      rfl
    exact hok.of_no_room hroom'
  | some room =>
    have hroom' : (w.wire.leave now p).room = some (room.leave now p) := by
      rw [Wire.leave, hroom]
      rfl
    apply h.moves hsound rfl hroom hroom' (room.moves_leave now p)
    intro a s' hs'
    obtain ⟨-, hs'⟩ := get?_erase_some.mp hs'
    exact ⟨s', hs', rfl⟩

theorem Inv.fileLanded (now : Nat) (userId : Text) (coverage : Option Nat) :
    Inv { w with wire := w.wire.fileLanded now userId coverage } := by
  have hsound := h.sound.fileLanded now userId coverage
  cases hroom : w.wire.room with
  | none =>
    apply h.rewire hsound rfl
    intro client reach hok
    have hroom' : (w.wire.fileLanded now userId coverage).room = none := by
      rw [Wire.fileLanded, hroom]
      rfl
    exact hok.of_no_room hroom'
  | some room =>
    have hroom' : (w.wire.fileLanded now userId coverage).room = some (room.fileLanded now userId coverage) := by
      rw [Wire.fileLanded, hroom]
      rfl
    exact h.moves hsound rfl hroom hroom' (room.moves_fileLanded now userId coverage) fun a s' hs' => ⟨s', hs', rfl⟩

theorem Inv.evictIdle (now : Nat) : Inv { w with wire := w.wire.evictIdle now } := by
  apply h.rewire (h.sound.evictIdle now) rfl
  intro client reach hok
  cases hroom : (w.wire.evictIdle now).room with
  | none => exact hok.of_no_room hroom
  | some room =>
    have hsame : (w.wire.evictIdle now).room = w.wire.room := by
      rw [hroom]
      exact (filter_eq_some_iff.mp hroom).1.symm
    apply hok.of_same hsame fun p s' hs' => ⟨s', hs'⟩
    intro p _
    rw [Wire.ahead, hsame]
    rfl

end

/-- What a step must not do, for every patch to be handed over once and none to be claimed too soon. -/
def Spared (fingerprint : Fingerprint D) (w : World D) : Action D → Prop
  | .connect _ _ _ _ =>
    -- a room is made anew only for clients that know no other, and one that has lost edits is not joined
    (w.wire.room = none → ∀ c client, w.clients.get? c = some client → client.handed = [] ∧ client.includedSeq = 0) ∧
      ∀ room, w.wire.room = some room → room.seq ≤ room.covered + Collab.opBacklog
  | .deliver c => ∀ client p f rest, w.clients.get? c = some client → client.session = some p →
      w.wire.ahead p = f :: rest →
        -- nobody sends what this client sent, and what comes again was confirmed
        (∀ o ∈ f.ops, client.Told fingerprint o) ∧
          ∀ wl, f = .welcome wl → ∀ o ∈ f.ops, o ∈ client.handed → o.seq ∈ client.applied
  | .answer c => ∀ client p s n, w.clients.get? c = some client → client.session = some p →
      w.wire.sockets.get? p = some s → s.answers.head? = some (.ack n) →
        -- the ack does not overtake the edits before it
        ∀ f ∈ w.wire.ahead p, (∀ wl, f ≠ .welcome wl) ∧ ∀ o ∈ f.ops, n < o.seq
  | _ => True

section

variable (h : w.Inv)
include h

theorem Inv.deliver {c : Nat} (hspared : w.Spared fingerprint (.deliver c)) : (w.deliver fingerprint c).Inv := by
  unfold World.deliver
  split
  · exact h
  rename_i client hget
  split
  · exact h
  rename_i p hp
  split
  · exact h
  rename_i f rest hahead
  obtain ⟨htold, hagain⟩ := hspared client p f rest hget hp hahead
  obtain ⟨reach, hok⟩ := h.clients c client hget
  have hothers : ∀ (client' : Client D) (reach : Nat), (∀ q, client.session = some q → client'.session ≠ some q) →
      client'.OkAt w.wire reach → client'.OkAt (w.wire.hear p) reach :=
    fun client' reach hne hok' => hok'.hear_other (hne p hp)
  have hframe : (client.onFrame fingerprint f).session = client.session := by
    cases f with
    | welcome wl | event e => exact Client.session_receive _ _ _
  apply h.put hget (.inl hframe) (h.sound.hear hahead) rfl _ hothers
  cases f with
  | welcome wl => exact ⟨wl.seq, hok.hearWelcome h.sound hp hahead htold (hagain wl rfl)⟩
  | event e => exact hok.hearEvent h.sound hp hahead htold

theorem Inv.answer {c : Nat} (hspared : w.Spared fingerprint (.answer c)) : (w.answer c).Inv := by
  unfold World.answer
  split
  · exact h
  rename_i client hget
  split
  · exact h
  rename_i p hp
  split
  · exact h
  rename_i e he
  obtain ⟨s, hs, hhead⟩ := bind_eq_some_iff.mp he
  obtain ⟨reach, hok⟩ := h.clients c client hget
  have hothers : ∀ (client' : Client D) (reach : Nat), (∀ q, client.session = some q → client'.session ≠ some q) →
      client'.OkAt w.wire reach → client'.OkAt (w.wire.takeAnswer p) reach :=
    fun client' reach _ hok' => hok'.takeAnswer p
  have hsession : (client.onAnswer e).session = client.session := by
    cases e with
    | _ => rfl
  apply h.put hget (.inl hsession) (h.sound.takeAnswer p) rfl _ hothers
  cases e with
  | ack n =>
    have hmem : .ack n ∈ s.answers := mem_of_mem_head? hhead
    have hacked := hok.onAck h.sound hp hs hmem (hspared client p s n hget hp hs hhead)
    exact ⟨_, hacked.takeAnswer p⟩
  | _ => exact ⟨reach, hok.takeAnswer p⟩

theorem Inv.confirmApplied (c k : Nat) : (w.confirmApplied c k).Inv := by
  unfold World.confirmApplied
  split
  · exact h
  rename_i client hget
  split
  · exact h
  rename_i o ho
  obtain ⟨reach, hok⟩ := h.clients c client hget
  have hmem : o ∈ client.handed := mem_of_getElem? ho
  obtain ⟨applied, hmark⟩ : ∃ applied, client.markApplied o.seq = { client with applied := applied } := by
    unfold Client.markApplied
    split
    · exact ⟨client.applied, rfl⟩
    · exact ⟨_, rfl⟩
  have hafter : client.confirmApplied o = { client with
      applied := applied, outstanding := client.outstanding.filter (· ≠ o.seq), confirmed := client.confirmed ++ [o],
      includedSeq := max client.includedSeq o.seq } := by
    unfold Client.confirmApplied Client.noteIncluded
    rw [hmark]
  have hright := hok.right.confirmApplied hmem
  rw [hafter] at hright ⊢
  refine h.put hget (.inl rfl) h.sound rfl ⟨reach, hright, ?_, hok.handed, ?_, hok.session, hok.line⟩
    fun client' reach _ hok' => hok'
  · exact Nat.max_le.mpr ⟨hok.included, hok.handed o hmem⟩
  · intro room hroom
    have hknows := hok.knows room hroom
    exact ⟨hknows.le, hknows.handed, hknows.all⟩

theorem Inv.say (session : Option Nat) (msgs : List (ClientMsg (Payload D))) : (w.say session msgs).Inv := by
  cases session with
  | none => exact h
  | some p => exact h.rewire (h.sound.say p msgs) rfl fun client reach hok => hok.say p msgs

theorem Inv.sendPatch (c : Nat) (patch : D) (checksum : Option D) : (w.sendPatch fingerprint c patch checksum).Inv := by
  unfold World.sendPatch
  split
  · exact h
  rename_i client hget
  obtain ⟨reach, hok⟩ := h.clients c client hget
  have hput : Inv { w with clients := w.clients.put c (client.sendPatch fingerprint patch checksum).1 } := by
    obtain ⟨sent, pending, hafter⟩ : ∃ sent pending, (client.sendPatch fingerprint patch checksum).1 =
        { client with sentFingerprints := sent, pending := pending } := by
      unfold Client.sendPatch
      dsimp only
      split
      · exact ⟨client.sentFingerprints, client.pending, rfl⟩
      split
      · split
        · exact ⟨_, _, rfl⟩
        · exact ⟨_, client.pending, rfl⟩
      · split
        · exact ⟨client.sentFingerprints, _, rfl⟩
        · exact ⟨client.sentFingerprints, client.pending, rfl⟩
    rw [hafter]
    refine h.put hget (.inl rfl) h.sound rfl ⟨reach, ?_⟩ fun client' reach _ hok' => hok'
    exact hok.of_fields rfl rfl rfl rfl rfl rfl rfl rfl (.inl rfl)
  exact hput.say _ _

theorem Inv.sendSaved (c : Nat) (size seq : Option Nat) : (w.sendSaved c size seq).Inv := by
  unfold World.sendSaved
  split
  · exact h
  · exact h.say _ _

theorem Inv.new (c : Nat) (canWrite : Bool) : Inv { w with clients := w.clients.put c (Client.new canWrite) } := by
  have hnew : (Client.new canWrite : Client D).OkAt w.wire 0 := by
    refine ⟨⟨?_, nodup_nil, ?_, ?_, ?_⟩, Nat.le_refl _, ?_, ?_, ?_, ?_⟩
    · exact fun q hq => (nomatch hq)
    · exact fun n hn => (nomatch hn)
    · exact fun o ho => (nomatch ho)
    · exact fun o ho => (nomatch ho)
    · exact fun o ho => (nomatch ho)
    · intro room hroom
      refine ⟨Nat.zero_le _, fun o ho => (nomatch ho), ?_⟩
      intro o ho hle
      have hpos : 1 ≤ o.seq := one_le_of_mem (h.sound.steady room hroom) ho
      omega
    · exact fun p hp => (nomatch hp)
    · exact fun p room s hp => (nomatch hp)
  refine ⟨h.sound, ?_, ?_, ?_⟩
  · intro c' client' hget'
    rcases get?_put_some.mp hget' with ⟨-, rfl⟩ | ⟨-, hget'⟩
    · exact ⟨0, hnew⟩
    · exact h.clients c' client' hget'
  · intro c' client' p hget' hp
    rcases get?_put_some.mp hget' with ⟨-, rfl⟩ | ⟨-, hget'⟩
    · cases hp
    · exact h.given c' client' p hget' hp
  · intro c₁ client₁ c₂ client₂ p hget₁ hget₂ hne hp hp₂
    rw [get?_put] at hget₁ hget₂
    split at hget₁
    · obtain rfl := some.inj hget₁
      cases hp
    · split at hget₂
      · obtain rfl := some.inj hget₂
        cases hp₂
      · exact h.apart c₁ client₁ c₂ client₂ p hget₁ hget₂ hne hp hp₂

theorem Inv.close (c : Nat) : Inv { w with clients := w.clients.erase c } := by
  have hget : ∀ c' client', (w.clients.erase c).get? c' = some client' → w.clients.get? c' = some client' := by
    intro c' client' hget'
    exact (get?_erase_some.mp hget').2
  refine ⟨h.sound, ?_, ?_, ?_⟩
  · intro c' client' hget'
    exact h.clients c' client' (hget c' client' hget')
  · intro c' client' p hget' hp
    exact h.given c' client' p (hget c' client' hget') hp
  · intro c₁ client₁ c₂ client₂ p hget₁ hget₂ hne hp
    exact h.apart c₁ client₁ c₂ client₂ p (hget c₁ client₁ hget₁) (hget c₂ client₂ hget₂) hne hp

/-- Everybody is right about the room somebody has just come into. -/
theorem Inv.joined {p now : Nat} {userId username : Text} {canWrite : Bool}
    (hjoined : (w.wire.join now userId username canWrite).1 = some p)
    (hfresh : w.wire.room = none → ∀ c client, w.clients.get? c = some client → client.handed = [] ∧ client.includedSeq = 0)
    {c : Nat} (hget : w.clients.get? c = some client) :
    ∃ reach, client.OkAt (w.wire.join now userId username canWrite).2 reach ∧
      reach ≤ (w.wire.room.getD (Room.fresh now)).seq := by
  have hne : client.session ≠ some p := by
    intro hp
    have hlt := h.given c client p hget hp
    have heq := (Wire.join_some hjoined).1
    omega
  obtain ⟨reach, hok⟩ := h.clients c client hget
  cases hroom : w.wire.room with
  | none => exact ⟨0, hok.newRoom h.sound hroom hjoined hne (hfresh hroom c client hget), Nat.zero_le _⟩
  | some room => exact ⟨reach, hok.join h.sound hroom hjoined hne, (hok.knows room hroom).le⟩

theorem Inv.connect (now c : Nat) (userId username : Text) (canWrite : Bool)
    (hspared : w.Spared fingerprint (.connect c userId username canWrite)) :
    (w.connect now c userId username canWrite).Inv := by
  unfold World.connect
  split
  · exact h
  rename_i client hget
  split
  · exact h
  dsimp only
  split
  · rename_i p hjoined
    obtain ⟨hp, hroom', hseq, -, hself⟩ := Wire.join_some hjoined
    have hsteady : Steady (w.wire.room.getD (Room.fresh now)) := by
      cases hroom : w.wire.room with
      | none => exact Collab.steady_fresh now
      | some room => exact h.sound.steady room hroom
    have hshort : (w.wire.room.getD (Room.fresh now)).seq ≤
        (w.wire.room.getD (Room.fresh now)).covered + Collab.opBacklog := by
      cases hroom : w.wire.room with
      | none => exact Nat.zero_le _
      | some room => exact hspared.2 room hroom
    refine ⟨h.sound.join now userId username canWrite, ?_, ?_, ?_⟩
    · intro c' client' hget'
      rcases get?_put_some.mp hget' with ⟨-, rfl⟩ | ⟨-, hget'⟩
      · obtain ⟨reach, hok, hreach⟩ := h.joined hjoined hspared.1 hget
        refine ⟨reach, hok.newcomer ?_⟩
        intro room hroom
        obtain rfl := some.inj (hroom'.symm.trans hroom)
        rw [hself]
        exact Collab.line_join hsteady hshort hreach now userId username canWrite
      · obtain ⟨reach, hok, -⟩ := h.joined hjoined hspared.1 hget'
        exact ⟨reach, hok⟩
    · intro c' client' q hget' hq
      rw [hseq]
      rcases get?_put_some.mp hget' with ⟨-, rfl⟩ | ⟨-, hget'⟩
      · have hpq : p = q := some.inj hq
        omega
      · have hlt := h.given c' client' q hget' hq
        omega
    · intro c₁ client₁ c₂ client₂ q hget₁ hget₂ hne hq hq₂
      rw [get?_put] at hget₁ hget₂
      split at hget₁
      · rename_i hc₁
        obtain rfl := some.inj hget₁
        rw [if_neg (fun hc₂ => hne (hc₁.trans hc₂.symm))] at hget₂
        have hpq : p = q := some.inj hq
        have hlt := h.given c₂ client₂ q hget₂ hq₂
        omega
      · split at hget₂
        · obtain rfl := some.inj hget₂
          have hpq : p = q := some.inj hq₂
          have hlt := h.given c₁ client₁ q hget₁ hq
          omega
        · exact h.apart c₁ client₁ c₂ client₂ q hget₁ hget₂ hne hq hq₂
  · exact h

theorem Inv.step (bytes : Payload D → Nat) (now : Nat) {a : Action D} (hspared : w.Spared fingerprint a) :
    (w.step fingerprint bytes now a).Inv := by
  cases a with
  | new c canWrite =>
    simp only [World.step]
    split
    · exact h.new c canWrite
    · exact h
  | connect c userId username canWrite => exact h.connect now c userId username canWrite hspared
  | sendPatch c patch checksum => exact h.sendPatch c patch checksum
  | deliver c => exact h.deliver hspared
  | answer c => exact h.answer hspared
  | confirmApplied c k => exact h.confirmApplied c k
  | sendSaved c size seq => exact h.sendSaved c size seq
  | fileLanded userId coverage => exact h.fileLanded now userId coverage
  | drop c =>
    simp only [World.step, change]
    split
    · exact h
    · rename_i client hget
      obtain ⟨reach, hok⟩ := h.clients c client hget
      refine h.put hget (.inr rfl) h.sound rfl ⟨reach, ?_⟩ fun client' reach _ hok' => hok'
      exact hok.of_fields rfl rfl rfl rfl rfl rfl rfl rfl (.inr rfl)
  | close c => exact h.close c
  | serve p canWrite => exact h.serve bytes now p canWrite
  | leave p => exact h.leave now p
  | evictIdle => exact h.evictIdle now

end

theorem Inv.empty : (empty : World D).Inv where
  sound := Wire.Sound.empty
  clients := fun _ _ hget => (nomatch hget)
  given := fun _ _ _ hget => (nomatch hget)
  apart := fun _ _ _ _ _ hget => (nomatch hget)

/-- What is claimed is behind everything that waits for the editor. -/
theorem lt_of_outstanding {n m : Nat} (h : client.contiguousSeq = n) (hm : m ∈ client.outstanding)
    (hpos : 1 ≤ m) : n < m := by
  unfold Client.contiguousSeq at h
  cases hmin : client.outstanding.min? with
  | none =>
    rw [min?_eq_none_iff] at hmin
    rw [hmin] at hm
    cases hm
  | some least =>
    rw [hmin] at h
    have hle : least ≤ m := (min?_eq_some_iff.mp hmin).2 m hm
    have hn : min client.includedSeq (least - 1) = n := h
    omega

theorem contiguousSeq_le (client : Client D) : client.contiguousSeq ≤ client.includedSeq := by
  unfold Client.contiguousSeq
  split
  · exact Nat.le_refl _
  · exact Nat.min_le_left _ _

end Steps

/-! ### Runs -/

section Runs

variable [DecidableEq D]

def SparedRun (fingerprint : Fingerprint D) (bytes : Payload D → Nat) : List (Nat × Action D) → World D → Prop
  | [], _ => True
  | (now, a) :: rest, w => w.Spared fingerprint a ∧ SparedRun fingerprint bytes rest (w.step fingerprint bytes now a)

/-- What reached a client from others was handed over once, and it claims nothing it lacks. -/
def Kept (w : World D) : Prop :=
  ∀ c client, w.clients.get? c = some client →
    (∀ o ∈ client.heard, o.peerId ∉ client.sessions → client.handed.count o = 1) ∧
      ∀ n room, client.snapshotSeq = some n → w.wire.room = some room → ∀ o ∈ room.accepted, o.seq ≤ n →
        o.peerId ∈ client.sessions ∨ o ∈ client.confirmed ∨ o.seq ≤ room.covered

theorem Inv.kept {w : World D} (h : w.Inv) : w.Kept := by
  intro c client hget
  obtain ⟨reach, hok⟩ := h.clients c client hget
  constructor
  · intro o ho hother
    rcases hok.right.heard o ho with hown | hin
    · exact absurd hown hother
    · exact count_eq_one_of_mem (List.Nodup.of_map Op.seq hok.right.nodup) hin
  · intro n room hsnapshot hroom o ho hle
    unfold Client.snapshotSeq at hsnapshot
    split at hsnapshot
    · cases hsnapshot
    have hn : client.contiguousSeq = n := some.inj hsnapshot
    have hknows := hok.knows room hroom
    have hreach : o.seq ≤ reach := by
      have hcontiguous := contiguousSeq_le client
      have hincluded := hok.included
      omega
    rcases hknows.all o ho hreach with hown | hin | hcovered
    · exact .inl hown
    · rcases hok.right.tracked o hin with hout | hconf
      · have hlt := lt_of_outstanding hn hout (one_le_of_mem (h.sound.steady room hroom) ho)
        omega
      · exact .inr (.inl hconf)
    · exact .inr (.inr hcovered)

theorem kept_of_spared {fingerprint : Fingerprint D} {bytes : Payload D → Nat} (steps : List (Nat × Action D)) {w : World D}
    (h : w.Inv) (hspared : SparedRun fingerprint bytes steps w) : (run fingerprint bytes steps w).Kept := by
  induction steps generalizing w with
  | nil => exact h.kept
  | cons first rest ih =>
    obtain ⟨now, a⟩ := first
    obtain ⟨hfirst, hrest⟩ := hspared
    exact ih (h.step bytes now hfirst) hrest

/-- Patches are handed over once, and none is claimed too soon, in every run that is spared. -/
theorem patches_handed_over_once (fingerprint : Fingerprint D) (bytes : Payload D → Nat) (steps : List (Nat × Action D))
    (hspared : SparedRun fingerprint bytes steps empty) : (run fingerprint bytes steps empty).Kept :=
  kept_of_spared steps Inv.empty hspared

end Runs

def opening (c : Nat) : List (Nat × Action Char) := [(0, .new c true), (0, .connect c [] [] true), (0, .deliver c)]

/-- Two clients; one sends a patch, the other is handed it and confirms it. -/
def patched : List (Nat × Action Char) :=
  opening 0 ++ opening 1 ++ [(0, .sendPatch 0 'a' none), (0, .serve 1 true), (0, .deliver 1), (0, .answer 0),
    (0, .confirmApplied 1 0)]

theorem patches_handed_over_once_of_two :
    ((run (fun d => [d]) (fun _ => 0) patched empty).clients.get? 1).map Client.snapshotSeq = some (some 1) ∧
      (run (fun d => [d]) (fun _ => 0) patched empty).Kept := by
  refine ⟨by decide +kernel, ?_⟩
  apply patches_handed_over_once
  refine ⟨trivial, ⟨?_, ?_⟩, ?_, trivial, ⟨?_, ?_⟩, ?_, trivial, trivial, ?_, ?_, trivial, trivial⟩
  · intro _ c client hget
    have hmem := mem_rows.mpr hget
    cases hmem with
    | head => exact ⟨rfl, rfl⟩
    | tail _ hrest => cases hrest
  · intro room hroom
    cases hroom
  · intro client p f rest hget hp hahead
    cases hget
    cases hp
    cases hahead
    exact ⟨fun o ho => (nomatch ho), fun wl _ o ho => (nomatch ho)⟩
  · intro hroom
    cases hroom
  · intro room hroom
    cases hroom
    exact Nat.zero_le _
  · intro client p f rest hget hp hahead
    cases hget
    cases hp
    cases hahead
    exact ⟨fun o ho => (nomatch ho), fun wl _ o ho => (nomatch ho)⟩
  · -- the patch reaches the second client, which has sent none
    intro client p f rest hget hp hahead
    cases hget
    cases hp
    cases hahead
    refine ⟨?_, fun wl hwl => (nomatch hwl)⟩
    intro o ho _
    exact .inr fun hin => (nomatch hin)
  · -- its ack finds nothing but the second client's arrival ahead
    intro client p s n hget hp hs hhead f hf
    cases hget
    cases hp
    cases hs
    cases hf with
    | head => exact ⟨fun wl hwl => (nomatch hwl), fun o ho => (nomatch ho)⟩
    | tail _ hrest => cases hrest

/-- Two clients send the same patch. -/
def samePatch : List (Nat × Action Char) :=
  opening 0 ++ opening 1 ++ [(0, .sendPatch 0 'a' none), (0, .sendPatch 1 'a' none), (0, .serve 1 true),
    (0, .serve 2 true), (0, .deliver 0), (0, .deliver 0)]

/-- The ack of the second patch comes before the first patch. -/
def ackFirst : List (Nat × Action Char) :=
  opening 0 ++ opening 1 ++ [(0, .sendPatch 1 'b' none), (0, .serve 2 true), (0, .sendPatch 0 'a' none),
    (0, .serve 1 true), (0, .answer 0)]

/-- A patch of somebody else is not handed over, and a client claims one it has not got. -/
theorem patch_lost_or_claimed : ¬ (run (fun d => [d]) (fun _ => 0) samePatch empty).Kept ∧
      ¬ (run (fun d => [d]) (fun _ => 0) ackFirst empty).Kept := by
  constructor
  · intro h
    have hlost : ((run (fun d => [d]) (fun _ => 0) samePatch empty).clients.get? 0).map
        (fun client => (client.heard, client.sessions, client.handed)) = some ([⟨2, 2, ⟨'a', none⟩⟩], [1], []) := by
      decide +kernel
    obtain ⟨client, hget, hshows⟩ := map_eq_some_iff.mp hlost
    obtain ⟨hheard, hsessions, hhanded⟩ : client.heard = _ ∧ client.sessions = _ ∧ client.handed = _ := by
      simpa using hshows
    have honce := (h 0 client hget).1 ⟨2, 2, ⟨'a', none⟩⟩ (hheard ▸ mem_cons_self) (by rw [hsessions]; decide)
    rw [hhanded] at honce
    cases honce
  · intro h
    have hclaims : ((run (fun d => [d]) (fun _ => 0) ackFirst empty).clients.get? 0).map
        (fun client => (client.snapshotSeq, client.sessions, client.confirmed)) = some (some 2, [1], []) := by
      decide +kernel
    have hroom : (run (fun d => [d]) (fun _ => 0) ackFirst empty).wire.room.map
        (fun room => (room.accepted.head?, room.covered)) = some (some ⟨1, 2, ⟨'b', none⟩⟩, 0) := by
      decide +kernel
    obtain ⟨client, hget, hshows⟩ := map_eq_some_iff.mp hclaims
    obtain ⟨room, hroom, haccepted⟩ := map_eq_some_iff.mp hroom
    obtain ⟨hsnapshot, hsessions, hconfirmed⟩ : client.snapshotSeq = _ ∧ client.sessions = _ ∧ client.confirmed = _ := by
      simpa using hshows
    obtain ⟨hhead, hcovered⟩ : room.accepted.head? = _ ∧ room.covered = _ := by
      simpa using haccepted
    have hhas := (h 0 client hget).2 2 room hsnapshot hroom _ (mem_of_mem_head? hhead) (by decide)
    rw [hsessions, hconfirmed, hcovered] at hhas
    revert hhas
    decide

end World

end LibreServ.Diagram
