import LibreServ.CollabLine
import LibreServ.Diagram

/-! What a client of a diagram knows. Of the room's edits up to some number it has been handed all, each once, but for
its own and those that are in the file; what it says of itself goes no further. -/

namespace LibreServ.Diagram

open List Table
open Files (Text)

open Collab (Wire ServerEvent ClientMsg Frame Op opsOf Room Line Tail Greets Steady)

variable {D : Type} {rest : List (Frame (Payload D))} {p : Nat}

/-! ### Lists with numbers -/

section Numbers

variable {J : Type} {ops : List (Op J)} {o o' : Op J} {room : Room J}

theorem sorted_of_steady (h : Steady room) : (room.accepted.map Op.seq).Pairwise (· < ·) := by
  rw [h.numbers]
  exact pairwise_lt_range'

theorem seq_le_of_mem (h : Steady room) (ho : o ∈ room.accepted) : o.seq ≤ room.seq := by
  have hmem : o.seq ∈ room.accepted.map Op.seq := mem_map_of_mem ho
  rw [h.numbers, mem_range'_1] at hmem
  omega

theorem one_le_of_mem (h : Steady room) (ho : o ∈ room.accepted) : 1 ≤ o.seq := by
  have hmem : o.seq ∈ room.accepted.map Op.seq := mem_map_of_mem ho
  rw [h.numbers, mem_range'_1] at hmem
  exact hmem.1

variable (hsorted : (ops.map Op.seq).Pairwise (· < ·))

include hsorted

theorem eq_of_seq (ho : o ∈ ops) (ho' : o' ∈ ops) (hseq : o.seq = o'.seq) :
    o = o' := by
  have hnodup : (ops.map Op.seq).Nodup := hsorted.imp fun hlt => Nat.ne_of_lt hlt
  exact inj_on_of_nodup_map hnodup ho ho' hseq

/-- After the first edit past a number come the others past that edit. -/
theorem filter_after {q : Op J → Bool} {reach : Nat} {rest : List (Op J)}
    (h : ops.filter (fun o => reach < o.seq && q o) = o :: rest) :
    rest = ops.filter (fun o' => o.seq < o'.seq && q o') ∧
      ∀ o' ∈ ops, reach < o'.seq → o'.seq < o.seq → q o' = false := by
  have hfiltered : ((o :: rest).map Op.seq).Pairwise (· < ·) := by
    rw [← h]
    exact hsorted.sublist (filter_sublist.map Op.seq)
  rw [map_cons, pairwise_cons] at hfiltered
  have hrest : ∀ o' ∈ rest, o.seq < o'.seq := fun o' ho' => hfiltered.1 o'.seq (mem_map_of_mem ho')
  have ho : o ∈ ops.filter (fun o => reach < o.seq && q o) := by
    rw [h]
    exact mem_cons_self
  rw [mem_filter, Bool.and_eq_true, decide_eq_true_eq] at ho
  constructor
  · have hkeep : (o :: rest).filter (fun o' => o.seq < o'.seq) = rest := by
      rw [filter_cons_of_neg (by simp), filter_eq_self]
      intro o' ho'
      exact decide_eq_true (hrest o' ho')
    rw [← hkeep, ← h, filter_filter]
    apply filter_congr
    intro o' _
    by_cases hlt : o.seq < o'.seq
    · have hreach : reach < o'.seq := ho.2.1.trans hlt
      simp [hreach]
    · simp [hlt]
  · intro o' ho' hreach hlt
    by_contra hq
    have hmem : o' ∈ ops.filter (fun o => reach < o.seq && q o) := by
      rw [mem_filter, Bool.and_eq_true, decide_eq_true_eq]
      exact ⟨ho', hreach, Bool.not_eq_false _ ▸ hq⟩
    rw [h, mem_cons] at hmem
    rcases hmem with rfl | hmem
    · exact Nat.lt_irrefl _ hlt
    · have hgt := hrest o' hmem
      omega

end Numbers

/-! ### Handing over -/

namespace Client

variable {fingerprint : Fingerprint D} {c : Client D} {ops : List (Op (Payload D))} {o : Op (Payload D)}

theorem foldl_deliver (c : Client D) (ops : List (Op (Payload D))) :
    ∃ outstanding, ops.foldl deliver c = { c with outstanding := outstanding, handed := c.handed ++ ops } ∧
      ∀ n, n ∈ outstanding ↔ n ∈ c.outstanding ∨ ∃ o ∈ ops, o.seq = n := by
  induction ops generalizing c with
  | nil =>
    refine ⟨c.outstanding, ?_, fun n => by simp⟩
    rw [append_nil]
    rfl
  | cons o rest ih =>
    obtain ⟨outstanding, hfold, hmem⟩ := ih (c.deliver o)
    refine ⟨outstanding, ?_, fun n => ?_⟩
    · rw [foldl_cons, hfold]
      simp [deliver]
    · have hadded : n ∈ (c.deliver o).outstanding ↔ n ∈ c.outstanding ∨ o.seq = n := by
        unfold deliver
        by_cases hin : o.seq ∈ c.outstanding
        · rw [if_pos hin]
          exact ⟨.inl, fun h => h.elim id fun heq => heq ▸ hin⟩
        · rw [if_neg hin, mem_append, mem_singleton]
          exact or_congr_right eq_comm
      rw [hmem n, hadded, or_assoc]
      simp

theorem session_receive (fingerprint : Fingerprint D) (c : Client D) (events : List (ServerEvent (Payload D))) :
    (c.receive fingerprint events).session = c.session := by
  obtain ⟨outstanding, hfold, -⟩ := foldl_deliver { c with heard := c.heard ++ opsOf events }
    (c.patchesToApply fingerprint events)
  rw [receive, hfold]

/-- What a client has to keep right by itself. -/
structure Right (c : Client D) : Prop where
  self : ∀ q, c.selfPeerId = some q → q ∈ c.sessions
  nodup : (c.handed.map Op.seq).Nodup
  applied : ∀ n ∈ c.applied, ∃ o ∈ c.handed, o.seq = n
  tracked : ∀ o ∈ c.handed, o.seq ∈ c.outstanding ∨ o ∈ c.confirmed
  heard : ∀ o ∈ c.heard, o.peerId ∈ c.sessions ∨ o ∈ c.handed

/-- An edit of somebody else is not taken for one of its own. -/
def Told (fingerprint : Fingerprint D) (c : Client D) (o : Op (Payload D)) : Prop :=
  o.peerId ∉ c.sessions → fingerprint o.payload.patch = [] ∨ fingerprint o.payload.patch ∉ c.sentFingerprints

/-- Events with edits of a numbered list: all of them are handed over now or have been, but for its own. -/
theorem Right.receive (h : c.Right) {events : List (ServerEvent (Payload D))} {all : List (Op (Payload D))}
    (hsorted : (all.map Op.seq).Pairwise (· < ·)) (hhanded : ∀ o ∈ c.handed, o ∈ all) (hops : ∀ o ∈ opsOf events, o ∈ all)
    (hnodup : ((opsOf events).map Op.seq).Nodup) (htold : ∀ o ∈ opsOf events, c.Told fingerprint o)
    (hagain : ∀ o ∈ opsOf events, o ∈ c.handed → o.seq ∈ c.applied) :
    (c.receive fingerprint events).Right ∧
      ∃ more, (c.receive fingerprint events).handed = c.handed ++ more ∧ (∀ o ∈ more, o ∈ opsOf events) ∧
        (∀ o ∈ opsOf events, o.peerId ∈ c.sessions ∨ o ∈ c.handed ++ more) ∧
        (c.receive fingerprint events).sessions = c.sessions ∧ (c.receive fingerprint events).session = c.session ∧
        (c.receive fingerprint events).includedSeq = c.includedSeq := by
  set more := c.patchesToApply fingerprint events with hmore
  have hsub : ∀ o ∈ more, o ∈ opsOf events := fun o ho => mem_of_mem_filter ho
  obtain ⟨outstanding, hfold, hmem⟩ := foldl_deliver { c with heard := c.heard ++ opsOf events } more
  have hafter : c.receive fingerprint events = { c with
      heard := c.heard ++ opsOf events, outstanding := outstanding, handed := c.handed ++ more } := hfold
  have hall : ∀ o ∈ opsOf events, o.peerId ∈ c.sessions ∨ o ∈ c.handed ++ more := by
    intro o ho
    by_cases hown : o.peerId ∈ c.sessions
    · exact .inl hown
    right
    rw [mem_append]
    by_cases happlied : o.seq ∈ c.applied
    · obtain ⟨o', ho', hseq⟩ := h.applied o.seq happlied
      left
      rw [← eq_of_seq hsorted (hhanded o' ho') (hops o ho) hseq]
      exact ho'
    · right
      have hself : c.selfPeerId ≠ some o.peerId := fun heq => hown (h.self o.peerId heq)
      have hunsent : ¬ (fingerprint o.payload.patch ≠ [] ∧ fingerprint o.payload.patch ∈ c.sentFingerprints) := by
        rintro ⟨hne, hin⟩
        exact (htold o ho hown).elim hne fun hnot => hnot hin
      rw [hmore, patchesToApply, mem_filter]
      refine ⟨ho, ?_⟩
      simp only [Bool.and_eq_true, decide_eq_true_eq, Bool.not_eq_true', Bool.and_eq_false_iff, decide_eq_false_iff_not]
      exact ⟨⟨hself, happlied⟩, not_and_or.mp hunsent⟩
  rw [hafter]
  refine ⟨⟨h.self, ?_, ?_, ?_, ?_⟩, more, rfl, hsub, hall, rfl, rfl, rfl⟩
  · rw [map_append, nodup_append]
    refine ⟨h.nodup, hnodup.sublist (filter_sublist.map Op.seq), ?_⟩
    intro n hn n' hn' heq
    obtain ⟨o', ho', rfl⟩ := mem_map.mp hn
    obtain ⟨o, ho, rfl⟩ := mem_map.mp hn'
    -- the same edit: it was handed over before, so its number is remembered
    have hsame : o' = o := eq_of_seq hsorted (hhanded o' ho') (hops o (hsub o ho)) heq
    have happlied : o.seq ∈ c.applied := hagain o (hsub o ho) (hsame ▸ ho')
    have hkept := (mem_filter.mp ho).2
    simp [happlied] at hkept
  · intro n hn
    obtain ⟨o, ho, hseq⟩ := h.applied n hn
    exact ⟨o, mem_append_left _ ho, hseq⟩
  · intro o ho
    rcases mem_append.mp ho with hold | hnew
    · rcases h.tracked o hold with hout | hconf
      · exact .inl ((hmem o.seq).mpr (.inl hout))
      · exact .inr hconf
    · exact .inl ((hmem o.seq).mpr (.inr ⟨o, hnew, rfl⟩))
  · intro o ho
    rcases mem_append.mp ho with hold | hnew
    · rcases h.heard o hold with hown | hhand
      · exact .inl hown
      · exact .inr (mem_append_left _ hhand)
    · exact hall o hnew

theorem Right.confirmApplied (h : c.Right) (ho : o ∈ c.handed) : (c.confirmApplied o).Right := by
  have hmarked : ∀ n ∈ (c.markApplied o.seq).applied, ∃ o' ∈ c.handed, o'.seq = n := by
    intro n hn
    unfold markApplied at hn
    split at hn
    · exact h.applied n hn
    · dsimp only at hn
      rcases mem_append.mp (mem_of_mem_drop hn) with hold | hnew
      · exact h.applied n hold
      · exact ⟨o, ho, (mem_singleton.mp hnew).symm⟩
  have hsame : ∃ applied, c.markApplied o.seq = { c with applied := applied } := by
    unfold markApplied
    split
    · exact ⟨c.applied, rfl⟩
    · exact ⟨_, rfl⟩
  obtain ⟨applied, hmark⟩ := hsame
  rw [hmark] at hmarked
  unfold Client.confirmApplied noteIncluded
  rw [hmark]
  refine ⟨h.self, h.nodup, hmarked, ?_, h.heard⟩
  intro o' ho'
  by_cases hseq : o'.seq = o.seq
  · right
    rw [inj_on_of_nodup_map h.nodup ho' ho hseq]
    exact mem_append_right _ mem_cons_self
  · rcases h.tracked o' ho' with hout | hconf
    · left
      rw [mem_filter]
      exact ⟨hout, decide_eq_true hseq⟩
    · exact .inr (mem_append_left _ hconf)

/-! ### A client and the room -/

/-- Of the edits up to `reach` the client has all, but for its own and those in the file. -/
structure Knows (c : Client D) (room : Room (Payload D)) (reach : Nat) : Prop where
  le : reach ≤ room.seq
  handed : ∀ o ∈ c.handed, o ∈ room.accepted
  all : ∀ o ∈ room.accepted, o.seq ≤ reach → o.peerId ∈ c.sessions ∨ o ∈ c.handed ∨ o.seq ≤ room.covered

structure OkAt (wire : Wire (Payload D)) (c : Client D) (reach : Nat) : Prop where
  right : c.Right
  included : c.includedSeq ≤ reach
  handed : ∀ o ∈ c.handed, o.seq ≤ reach
  knows : ∀ room, wire.room = some room → c.Knows room reach
  session : ∀ p, c.session = some p → p ∈ c.sessions
  line : ∀ p room s, c.session = some p → wire.room = some room → wire.sockets.get? p = some s →
    Line room p reach (wire.ahead p)

variable {wire wire' : Wire (Payload D)} {room room' : Room (Payload D)} {es : List (ServerEvent (Payload D))} {reach : Nat}

theorem Knows.moves (h : c.Knows room reach) (hmoves : room.Moves room' es) (hsteady : Steady room)
    (hsteady' : Steady room') : c.Knows room' reach where
  le := h.le.trans (hmoves.seq_le hsteady hsteady')
  handed := by
    intro o ho
    rw [hmoves.accepted]
    exact mem_append_left _ (h.handed o ho)
  all := by
    intro o ho hle
    rw [hmoves.accepted] at ho
    rcases mem_append.mp ho with hold | hnew
    · rcases h.all o hold hle with hown | hhanded | hcovered
      · exact .inl hown
      · exact .inr (.inl hhanded)
      · exact .inr (.inr (hcovered.trans hmoves.covered))
    · have hlt := hmoves.seq_lt hsteady hsteady' o hnew
      have hle' := h.le
      omega

section

variable (h : c.OkAt wire reach)

include h

/-- The room moves on, and sessions that go on have heard what they had. -/
theorem OkAt.moves (hsound : wire.Sound) (hsound' : wire'.Sound) (hroom : wire.room = some room)
    (hroom' : wire'.room = some room') (hmoves : room.Moves room' es)
    (hsockets : ∀ p s', wire'.sockets.get? p = some s' → ∃ s, wire.sockets.get? p = some s ∧ s'.heard = s.heard) :
    c.OkAt wire' reach where
  right := h.right
  included := h.included
  handed := h.handed
  knows := by
    intro room₀ hroom₀
    obtain rfl := Option.some.inj (hroom'.symm.trans hroom₀)
    exact (h.knows room hroom).moves hmoves (hsound.steady room hroom) (hsound'.steady _ hroom')
  session := h.session
  line := by
    intro p room₀ s' hp hroom₀ hs'
    obtain rfl := Option.some.inj (hroom'.symm.trans hroom₀)
    obtain ⟨s, hs, hheard⟩ := hsockets p s' hs'
    rw [hsound.ahead_of_moves hroom hroom' hmoves hs hs' hheard]
    exact (h.line p room s hp hroom hs).moves hmoves (hsound.steady room hroom) (hsound'.steady _ hroom')
      (h.knows room hroom).le

/-- The room is the same, and so is what lies ahead. -/
theorem OkAt.of_same (hroom : wire'.room = wire.room)
    (hsockets : ∀ p s', wire'.sockets.get? p = some s' → ∃ s, wire.sockets.get? p = some s)
    (hahead : ∀ p, c.session = some p → wire'.ahead p = wire.ahead p) : c.OkAt wire' reach where
  right := h.right
  included := h.included
  handed := h.handed
  knows := by
    intro room hroom'
    rw [hroom] at hroom'
    exact h.knows room hroom'
  session := h.session
  line := by
    intro p room s' hp hroom' hs'
    rw [hroom] at hroom'
    obtain ⟨s, hs⟩ := hsockets p s' hs'
    rw [hahead p hp]
    exact h.line p room s hp hroom' hs

/-- The room is given up. -/
theorem OkAt.of_no_room (hroom : wire'.room = none) : c.OkAt wire' reach where
  right := h.right
  included := h.included
  handed := h.handed
  knows := by
    intro room hroom'
    rw [hroom] at hroom'
    cases hroom'
  session := h.session
  line := by
    intro p room s hp hroom'
    rw [hroom] at hroom'
    cases hroom'

end

/-! ### What reaches a client -/

/-- The client hears edits up to `reach'`, with none of others left out. -/
theorem OkAt.receive (h : c.OkAt wire reach) (hsound : wire.Sound) (hroom : wire.room = some room) {reach' : Nat}
    {f : Frame (Payload D)} {events : List (ServerEvent (Payload D))}
    (hp : c.session = some p) (hahead : wire.ahead p = f :: rest) (hreach : reach ≤ reach') (hle : reach' ≤ room.seq)
    (hops : ∀ o ∈ opsOf events, o ∈ room.accepted ∧ o.seq ≤ reach') (hnodup : ((opsOf events).map Op.seq).Nodup)
    (htold : ∀ o ∈ opsOf events, c.Told fingerprint o)
    (hagain : ∀ o ∈ opsOf events, o ∈ c.handed → o.seq ∈ c.applied)
    (hbetween : ∀ o ∈ room.accepted, reach < o.seq → o.seq ≤ reach' →
      o.peerId = p ∨ o ∈ opsOf events ∨ o.seq ≤ room.covered)
    (hrest : Tail room p reach' rest) : (c.receive fingerprint events).OkAt (wire.hear p) reach' := by
  have hsorted := sorted_of_steady (hsound.steady room hroom)
  have hknows := h.knows room hroom
  obtain ⟨hright, more, hhanded, hmore, hall, hsessions, hsession, hincluded⟩ :=
    h.right.receive hsorted hknows.handed (fun o ho => (hops o ho).1) hnodup htold hagain
  refine ⟨hright, ?_, ?_, ?_, ?_, ?_⟩
  · rw [hincluded]
    exact h.included.trans hreach
  · intro o ho
    rw [hhanded] at ho
    rcases mem_append.mp ho with hold | hnew
    · exact (h.handed o hold).trans hreach
    · exact (hops o (hmore o hnew)).2
  · intro room₀ hroom₀
    obtain rfl := Option.some.inj (hroom.symm.trans hroom₀)
    refine ⟨hle, ?_, ?_⟩
    · intro o ho
      rw [hhanded] at ho
      rcases mem_append.mp ho with hold | hnew
      · exact hknows.handed o hold
      · exact (hops o (hmore o hnew)).1
    · intro o ho hoseq
      rw [hhanded, hsessions]
      by_cases hlt : reach < o.seq
      · rcases hbetween o ho hlt hoseq with hself | hheard | hcovered
        · left
          rw [hself]
          exact h.session p hp
        · rcases hall o hheard with hown | hin
          · exact .inl hown
          · exact .inr (.inl hin)
        · exact .inr (.inr hcovered)
      · rcases hknows.all o ho (Nat.not_lt.mp hlt) with hown | hin | hcovered
        · exact .inl hown
        · exact .inr (.inl (mem_append_left _ hin))
        · exact .inr (.inr hcovered)
  · intro q hq
    rw [hsession] at hq
    rw [hsessions]
    exact h.session q hq
  · intro q room₀ s' hq hroom₀ _
    obtain rfl := Option.some.inj (hroom.symm.trans hroom₀)
    rw [hsession, hp] at hq
    obtain rfl := Option.some.inj hq
    rw [hsound.ahead_hear hahead]
    exact hrest.line

/-- An edit that is heard is the first of others past `reach`. -/
theorem tail_next {e : ServerEvent (Payload D)} (hsteady : Steady room)
    (h : Tail room p reach (.event e :: rest)) (hle : reach ≤ room.seq) :
    ∃ reach', reach ≤ reach' ∧ reach' ≤ room.seq ∧
      (∀ o ∈ opsOf [e], o ∈ room.accepted ∧ reach < o.seq ∧ o.seq ≤ reach') ∧
      (∀ o ∈ room.accepted, reach < o.seq → o.seq ≤ reach' → o.peerId = p ∨ o ∈ opsOf [e]) ∧
      Tail room p reach' rest := by
  have hsorted := sorted_of_steady hsteady
  have hops : opsOf [e] ++ rest.flatMap Frame.ops = room.accepted.filter fun o => reach < o.seq && o.peerId ≠ p := h.ops
  have hevents : ∀ f ∈ rest, ∃ e, f = .event e := fun f hf => h.events f (mem_cons_of_mem _ hf)
  cases hone : opsOf [e] with
  | nil =>
    rw [hone] at hops
    refine ⟨reach, Nat.le_refl _, hle, fun o ho => (nomatch ho), ?_, hevents, hops⟩
    intro o _ hlt hle
    omega
  | cons o more =>
    obtain rfl : more = [] := by
      cases e with
      | op o' =>
        cases hone
        rfl
      | _ => cases hone
    rw [hone] at hops
    obtain ⟨hafter, hnone⟩ := filter_after hsorted hops.symm
    have ho : o ∈ room.accepted.filter fun o => reach < o.seq && o.peerId ≠ p := by
      rw [← hops]
      exact mem_cons_self
    rw [mem_filter, Bool.and_eq_true, decide_eq_true_eq] at ho
    have hoseq : o.seq ≤ room.seq := seq_le_of_mem hsteady ho.1
    refine ⟨o.seq, Nat.le_of_lt ho.2.1, hoseq, ?_, ?_, hevents, hafter⟩
    · intro o' ho'
      rw [mem_singleton.mp ho']
      exact ⟨ho.1, ho.2.1, Nat.le_refl _⟩
    · intro o' ho' hlt hle
      rcases Nat.lt_or_eq_of_le hle with hless | heq
      · left
        have hfalse := hnone o' ho' hlt hless
        simpa using hfalse
      · right
        rw [eq_of_seq hsorted ho' ho.1 heq]
        exact mem_cons_self

section

variable (h : c.OkAt wire reach)

include h

variable (hsound : wire.Sound)

include hsound

variable (hp : c.session = some p)

include hp

theorem OkAt.hearEvent {e : ServerEvent (Payload D)} (hahead : wire.ahead p = .event e :: rest)
    (htold : ∀ o ∈ opsOf [e], c.Told fingerprint o) :
    ∃ reach', (c.receive fingerprint [e]).OkAt (wire.hear p) reach' := by
  obtain ⟨room, s, hroom, hs⟩ := Wire.room_of_ahead hahead
  have hline := h.line p room s hp hroom hs
  rw [hahead] at hline
  obtain ⟨reach', hreach, hle, hnew, hbetween, hrest⟩ :=
    tail_next (hsound.steady room hroom) hline (h.knows room hroom).le
  refine ⟨reach', h.receive hsound hroom hp hahead hreach hle ?_ ?_ htold ?_ ?_ hrest⟩
  · exact fun o ho => ⟨(hnew o ho).1, (hnew o ho).2.2⟩
  · cases e with
    | op o => exact nodup_singleton _
    | _ => exact nodup_nil
  · intro o ho hhanded
    have hlt := (hnew o ho).2.1
    have hold := h.handed o hhanded
    omega
  · intro o ho hlt hoseq
    rcases hbetween o ho hlt hoseq with hself | hheard
    · exact .inl hself
    · exact .inr (.inl hheard)

theorem OkAt.hearWelcome {wl : Collab.Welcome (Payload D)} (hahead : wire.ahead p = .welcome wl :: rest)
    (htold : ∀ o ∈ opsOf wl.catchup, c.Told fingerprint o)
    (hagain : ∀ o ∈ opsOf wl.catchup, o ∈ c.handed → o.seq ∈ c.applied) :
    (c.onFrame fingerprint (.welcome wl)).OkAt (wire.hear p) wl.seq := by
  obtain ⟨room, s, hroom, hs⟩ := Wire.room_of_ahead hahead
  have hline := h.line p room s hp hroom hs
  rw [hahead] at hline
  obtain ⟨hgreets, hrest⟩ : Greets room p reach wl ∧ Tail room p wl.seq rest := hline
  have hset : OkAt wire { c with selfPeerId := some wl.peerId, serverCanWrite := some wl.canWrite } reach := by
    refine ⟨⟨?_, h.right.nodup, h.right.applied, h.right.tracked, h.right.heard⟩, h.included, h.handed, ?_, h.session, h.line⟩
    · intro q hq
      rw [← Option.some.inj hq, hgreets.peerId]
      exact h.session p hp
    · intro room₀ hroom₀
      have hknows := h.knows room₀ hroom₀
      exact ⟨hknows.le, hknows.handed, hknows.all⟩
  refine hset.receive hsound hroom hp hahead hgreets.reach hgreets.seq hgreets.known hgreets.nodup htold hagain ?_ hrest
  intro o ho _ hoseq
  exact .inr (hgreets.whole o ho hoseq)

/-- An ack is heard after every edit of others before it. -/
theorem OkAt.onAck {n : Nat} {s : Collab.Socket (Payload D)}
    (hs : wire.sockets.get? p = some s) (hn : .ack n ∈ s.answers)
    (hbehind : ∀ f ∈ wire.ahead p, (∀ wl, f ≠ .welcome wl) ∧ ∀ o ∈ f.ops, n < o.seq) :
    (c.onAck n).OkAt wire (max reach n) := by
  obtain ⟨room, rc, hroom, hhosts⟩ := hsound.sessions p s hs
  have hknows := h.knows room hroom
  have htail : Tail room p reach (wire.ahead p) := by
    have hline := h.line p room s hp hroom hs
    cases hahead : wire.ahead p with
    | nil =>
      rw [hahead] at hline
      exact hline
    | cons f rest =>
      rw [hahead] at hline hbehind
      cases f with
      | event e => exact hline
      | welcome wl => exact absurd rfl ((hbehind _ mem_cons_self).1 wl)
  -- the edits between are its own
  have hbetween : ∀ o ∈ room.accepted, reach < o.seq → o.seq ≤ n → o.peerId = p := by
    intro o ho hlt hle
    by_contra hne
    have hmem : o ∈ (wire.ahead p).flatMap Frame.ops := by
      rw [htail.ops, mem_filter, Bool.and_eq_true, decide_eq_true_eq]
      exact ⟨ho, hlt, decide_eq_true hne⟩
    obtain ⟨f, hf, hof⟩ := mem_flatMap.mp hmem
    have hgt := (hbehind f hf).2 o hof
    omega
  refine ⟨⟨h.right.self, h.right.nodup, h.right.applied, h.right.tracked, h.right.heard⟩, ?_, ?_, ?_, h.session, ?_⟩
  · show max c.includedSeq n ≤ max reach n
    have hincluded := h.included
    omega
  · intro o ho
    exact (h.handed o ho).trans (Nat.le_max_left _ _)
  · intro room₀ hroom₀
    obtain rfl := Option.some.inj (hroom.symm.trans hroom₀)
    refine ⟨Nat.max_le.mpr ⟨hknows.le, hhosts.acks n hn⟩, hknows.handed, ?_⟩
    intro o ho hle
    by_cases hlt : reach < o.seq
    · left
      have hon : o.seq ≤ n := by omega
      rw [hbetween o ho hlt hon]
      exact h.session p hp
    · exact hknows.all o ho (Nat.not_lt.mp hlt)
  · intro q room₀ s' hq hroom₀ _
    obtain rfl := Option.some.inj (hroom.symm.trans hroom₀)
    have hsame : p = q := Option.some.inj (hp.symm.trans hq)
    rw [← hsame]
    refine Tail.line ⟨htail.events, ?_⟩
    rw [htail.ops]
    apply filter_congr
    intro o ho
    by_cases hpeer : o.peerId = p
    · simp [hpeer]
    have hiff : reach < o.seq ↔ max reach n < o.seq := by
      constructor
      · intro hlt
        by_contra hge
        have hon : o.seq ≤ n := by omega
        exact hpeer (hbetween o ho hlt hon)
      · intro hlt
        omega
    have hsame : decide (reach < o.seq) = decide (max reach n < o.seq) := decide_eq_decide.mpr hiff
    rw [hsame]

end

/-! ### What leaves a client as it is -/

/-- Sessions send and take answers. -/
theorem OkAt.update (h : c.OkAt wire reach)
    (g : Nat → Collab.Socket (Payload D) → Collab.Socket (Payload D)) (hheard : ∀ p s, (g p s).heard = s.heard) :
    c.OkAt { wire with sockets := wire.sockets.update g } reach := by
  refine h.of_same rfl ?_ ?_
  · intro p s' hs'
    obtain ⟨s, hs, -⟩ := get?_update_some.mp hs'
    exact ⟨s, hs⟩
  · intro p _
    rw [Wire.ahead, Wire.ahead, get?_update]
    cases wire.room with
    | none => rfl
    | some room =>
      cases wire.sockets.get? p with
      | none => rfl
      | some s =>
        rw [Option.map_some]
        simp only [hheard]

theorem ahead_hear_of_ne {q : Nat} (hne : q ≠ p) : (wire.hear p).ahead q = wire.ahead q := by
  rw [Wire.ahead, Wire.ahead, Wire.hear, get?_update]
  cases wire.room with
  | none => rfl
  | some room =>
    cases wire.sockets.get? q with
    | none => rfl
    | some s =>
      rw [Option.map_some]
      simp only [if_neg hne]

variable (h : c.OkAt wire reach)

include h

theorem OkAt.hear_other (hne : c.session ≠ some p) : c.OkAt (wire.hear p) reach := by
  refine h.of_same rfl ?_ ?_
  · intro q s' hs'
    rw [Wire.hear, get?_update, Option.map_eq_some_iff] at hs'
    obtain ⟨s, hs, -⟩ := hs'
    exact ⟨s, hs⟩
  · intro q hq
    apply ahead_hear_of_ne
    intro hqp
    exact hne (hqp ▸ hq)

theorem OkAt.takeAnswer (p : Nat) : c.OkAt (wire.takeAnswer p) reach := by
  apply h.update
  intro q s
  split
  · rfl
  · rfl

theorem OkAt.say (p : Nat) (msgs : List (ClientMsg (Payload D))) :
    c.OkAt (wire.say p msgs) reach := by
  apply h.update
  intro q s
  split
  · rfl
  · rfl

/-- Nothing that matters to the others has changed with the c. -/
theorem OkAt.of_fields {c' : Client D} (hself : c'.selfPeerId = c.selfPeerId) (happlied : c'.applied = c.applied)
    (houtstanding : c'.outstanding = c.outstanding) (hincluded : c'.includedSeq = c.includedSeq)
    (hsessions : c'.sessions = c.sessions) (hheard : c'.heard = c.heard)
    (hhanded : c'.handed = c.handed) (hconfirmed : c'.confirmed = c.confirmed)
    (hsession : c'.session = c.session ∨ c'.session = none) : c'.OkAt wire reach := by
  have hold : ∀ p, c'.session = some p → c.session = some p := by
    intro p hp
    rcases hsession with hsame | hnone
    · exact hsame.symm.trans hp
    · rw [hnone] at hp
      cases hp
  refine ⟨⟨?_, ?_, ?_, ?_, ?_⟩, ?_, ?_, ?_, ?_, ?_⟩
  · rw [hself, hsessions]
    exact h.right.self
  · rw [hhanded]
    exact h.right.nodup
  · rw [happlied, hhanded]
    exact h.right.applied
  · rw [hhanded, houtstanding, hconfirmed]
    exact h.right.tracked
  · rw [hheard, hsessions, hhanded]
    exact h.right.heard
  · rw [hincluded]
    exact h.included
  · rw [hhanded]
    exact h.handed
  · intro room hroom
    have hknows := h.knows room hroom
    refine ⟨hknows.le, ?_, ?_⟩
    · rw [hhanded]
      exact hknows.handed
    · rw [hhanded, hsessions]
      exact hknows.all
  · intro p hp
    rw [hsessions]
    exact h.session p (hold p hp)
  · intro p room s hp
    exact h.line p room s (hold p hp)

/-- A newcomer to the room changes nothing for those in it. -/
theorem OkAt.join (hsound : wire.Sound) (hroom : wire.room = some room) {now : Nat}
    {userId username : Text} {canWrite : Bool} (hjoined : (wire.join now userId username canWrite).1 = some p)
    (hne : c.session ≠ some p) : c.OkAt (wire.join now userId username canWrite).2 reach := by
  obtain ⟨-, hroom', -, hsockets, -⟩ := Wire.join_some hjoined
  rw [hroom] at hroom'
  refine ⟨h.right, h.included, h.handed, ?_, h.session, ?_⟩
  · intro room₀ hroom₀
    obtain rfl := Option.some.inj (hroom'.symm.trans hroom₀)
    have hknows := h.knows room hroom
    exact ⟨hknows.le, hknows.handed, hknows.all⟩
  · intro q room₀ s hq hroom₀ hs
    obtain rfl := Option.some.inj (hroom'.symm.trans hroom₀)
    have hqp : q ≠ p := fun heq => hne (heq ▸ hq)
    rw [hsockets, get?_put_of_ne _ _ hqp] at hs
    obtain ⟨peer, hahead⟩ := hsound.ahead_join hjoined hs hqp
    rw [hahead]
    exact ((h.line q room s hq hroom hs).append rfl).of_same rfl rfl rfl

/-- Clients that know no other room have nothing to do with a new one. -/
theorem OkAt.newRoom (hsound : wire.Sound) (hroom : wire.room = none) {now : Nat}
    {userId username : Text} {canWrite : Bool} (hjoined : (wire.join now userId username canWrite).1 = some p)
    (hne : c.session ≠ some p) (hfresh : c.handed = [] ∧ c.includedSeq = 0) :
    c.OkAt (wire.join now userId username canWrite).2 0 := by
  obtain ⟨-, hroom', -, hsockets, -⟩ := Wire.join_some hjoined
  rw [hroom] at hroom'
  refine ⟨h.right, hfresh.2.le, ?_, ?_, h.session, ?_⟩
  · intro o ho
    rw [hfresh.1] at ho
    cases ho
  · intro room₀ hroom₀
    obtain rfl := Option.some.inj (hroom'.symm.trans hroom₀)
    refine ⟨Nat.zero_le _, ?_, fun o ho => (nomatch ho)⟩
    intro o ho
    rw [hfresh.1] at ho
    cases ho
  · intro q room₀ s hq _ hs
    have hqp : q ≠ p := fun heq => hne (heq ▸ hq)
    rw [hsockets, get?_put_of_ne _ _ hqp] at hs
    obtain ⟨room, rc, hsome, -⟩ := hsound.sessions q s hs
    rw [hroom] at hsome
    cases hsome

/-- The newcomer itself, in a room it is right about. -/
theorem OkAt.newcomer (hline : ∀ room, wire.room = some room → Line room p reach (wire.ahead p)) :
    OkAt wire { c with session := some p, sessions := c.sessions ++ [p] } reach := by
  refine ⟨⟨?_, h.right.nodup, h.right.applied, h.right.tracked, ?_⟩, h.included, h.handed, ?_, ?_, ?_⟩
  · intro q hq
    exact mem_append_left _ (h.right.self q hq)
  · intro o ho
    rcases h.right.heard o ho with hown | hin
    · exact .inl (mem_append_left _ hown)
    · exact .inr hin
  · intro room hroom
    have hknows := h.knows room hroom
    refine ⟨hknows.le, hknows.handed, ?_⟩
    intro o ho hle
    rcases hknows.all o ho hle with hown | hin
    · exact .inl (mem_append_left _ hown)
    · exact .inr hin
  · intro q hq
    rw [← Option.some.inj hq]
    exact mem_append_right _ mem_cons_self
  · intro q room s hq hroom _
    rw [← Option.some.inj hq]
    exact hline room hroom

end Client

end LibreServ.Diagram
