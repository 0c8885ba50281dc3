import LibreServ.OfficeRestored

/-! A client that comes back to an office document has missed nothing, as long as the newest edit of the log tells. -/

namespace LibreServ.Restore

open List Option Table
open Files (Text)

open Office (AuthMsg Clock DocSession OpRecord SaveMsg)

open LibreServ.Bundle (Quiet edits)

namespace World

/-- What holds at all times. -/
structure Inv (w : World) : Prop where
  socks : ∀ k c, w.clients.get? k = some c → k < w.sockSeq ∧ c.sock < w.sockSeq ∧ c.era ≤ w.era
  times : ∀ op ∈ w.accepted, 0 ≤ op.time ∧ op.time < 2 ^ 63
  log : ∀ s, w.session = some s → LogOk w.accepted s
  /-- Who is in the session has opened the document in it. -/
  present : ∀ s, w.session = some s → ∀ sock, (s.participants.get? sock).isSome →
    sock < w.sockSeq ∧ ∀ k c, w.clients.get? k = some c → c.sock = sock → c.era = w.era
  follows : ∀ s, w.session = some s → ∀ k c, w.clients.get? k = some c → c.era = w.era →
    Follows w.accepted w.baked s c

variable {w : World} {now : Clock}

theorem inv_start : start.Inv where
  socks := fun _ _ hc => nomatch hc
  times := fun _ hop => nomatch hop
  log := fun _ hs => nomatch hs
  present := fun _ hs => nomatch hs
  follows := fun _ hs => nomatch hs

section

variable (h : w.Inv)

include h

/-- A change of the session that leaves its log, where nobody comes. -/
theorem Inv.quiet {s s' : DocSession} (hs : w.session = some s) (hq : Quiet s s') :
    Inv { w with session := some s' } where
  socks := h.socks
  times := h.times
  log := by
    rintro _ ⟨⟩
    exact (h.log s hs).quiet hq
  present := by
    rintro _ ⟨⟩ sock hsock
    exact h.present s hs sock (hq.present sock hsock)
  follows := by
    rintro _ ⟨⟩ k c hc hera
    exact (h.follows s hs k c hc hera).quiet hq.ops

theorem Inv.call {f : DocSession → DocSession} (hq : ∀ s, Quiet s (f s)) : (w.call f).Inv := by
  cases hs : w.session with
  | none =>
    have hsame : w.call f = w := by
      unfold World.call
      rw [hs]
      exact congrArg (fun session => { w with session := session }) hs.symm
    rw [hsame]
    exact h
  | some s =>
    have hcall : w.call f = { w with session := some (f s) } := by
      unfold World.call
      rw [hs]
      rfl
    rw [hcall]
    exact h.quiet hs (hq s)

/-- In a session that was just made nobody has opened the document yet. -/
theorem Inv.make {s : DocSession} (room : Bool) (hops : s.ops = []) (hspan : s.baseIndex ≤ s.changeIndex)
    (hparts : s.participants = Table.empty) : (w.make s room).Inv := by
  unfold World.make
  split
  · refine ⟨?_, h.times, ?_, ?_, ?_⟩
    · intro k c hc
      obtain ⟨hk, hsock, hera⟩ := h.socks k c hc
      exact ⟨hk, hsock, Nat.le_succ_of_le hera⟩
    · rintro _ ⟨⟩
      refine ⟨hspan, ?_, ?_, ?_, ?_⟩
      · rw [hops]
        exact nofun
      · rw [hops]
        exact nofun
      · rw [hops]
        exact nofun
      · rw [hops]
        exact nofun
    · rintro _ ⟨⟩ sock hsock
      rw [hparts] at hsock
      cases hsock
    · rintro _ ⟨⟩ k c hc hera
      have hold := (h.socks k c hc).2.2
      have hnew : c.era = w.era + 1 := hera
      omega
  · exact h

theorem Inv.registerKey (driveId path : Text) (room : Bool) : (w.registerKey now driveId path room).Inv := by
  unfold World.registerKey
  split
  · rename_i s hs
    exact h.quiet hs (Quiet.of_same rfl rfl rfl rfl)
  · exact h.make room rfl (le_refl _) rfl

theorem Inv.resurrectKey (driveId path : Text) (room : Bool) : (w.resurrectKey now driveId path room).Inv := by
  unfold World.resurrectKey
  split
  · exact h
  · exact h.make room rfl (le_refl _) rfl

theorem Inv.evictIdle : (w.evictIdle now).Inv := by
  have hsession : ∀ s, (w.evictIdle now).session = some s → w.session = some s := by
    intro s hs
    exact (filter_eq_some_iff.mp hs).1
  exact ⟨h.socks, h.times, fun s hs => h.log s (hsession s hs), fun s hs => h.present s (hsession s hs),
    fun s hs => h.follows s (hsession s hs)⟩

end

section

variable (h : w.Inv) {s s' : DocSession} (hs : w.session = some s) (hops : s'.ops = s.ops)
  (hbase : s'.baseIndex = s.baseIndex) (hchange : s'.changeIndex = s.changeIndex)
include h hs hops hbase hchange

/-- A socket got a number, and nothing else came of it. -/
theorem Inv.turned (hparts : ∀ k, (s'.participants.get? k).isSome → (s.participants.get? k).isSome) :
    Inv { w with session := some s', sockSeq := w.sockSeq + 1 } := by
  have hquiet := h.quiet hs ⟨hops, hbase, hchange, hparts⟩
  refine ⟨?_, h.times, hquiet.log, ?_, hquiet.follows⟩
  · intro k c hc
    obtain ⟨hk, hsock, hera⟩ := h.socks k c hc
    exact ⟨Nat.lt_succ_of_lt hk, Nat.lt_succ_of_lt hsock, hera⟩
  · intro s₂ hs₂ sock hsock
    obtain ⟨hlt, hall⟩ := hquiet.present s₂ hs₂ sock hsock
    exact ⟨Nat.lt_succ_of_lt hlt, hall⟩

/-- A client of this session enters on the next socket. -/
theorem Inv.enters
    (hparts : ∀ k, (s'.participants.get? k).isSome → k = w.sockSeq ∨ (s.participants.get? k).isSome) {client : Nat}
    (hclient : client ≤ w.sockSeq) {c : Client} (hsock : c.sock = w.sockSeq) (hera : c.era = w.era)
    (hc : Follows w.accepted w.baked s c) :
    Inv { w with session := some s', sockSeq := w.sockSeq + 1, clients := w.clients.put client c } := by
  have hget : ∀ {k c'}, (w.clients.put client c).get? k = some c' → k = client ∧ c' = c ∨ w.clients.get? k = some c' := by
    intro k c' hput
    rw [get?_put] at hput
    split at hput
    · rename_i hk
      exact .inl ⟨hk, (some.inj hput).symm⟩
    · exact .inr hput
  refine ⟨?_, h.times, ?_, ?_, ?_⟩
  · intro k c' hc'
    rcases hget hc' with ⟨rfl, rfl⟩ | hold
    · refine ⟨Nat.lt_succ_of_le hclient, ?_, le_of_eq hera⟩
      rw [hsock]
      exact Nat.lt_succ_self _
    · obtain ⟨hk, hsock', hera'⟩ := h.socks k c' hold
      exact ⟨Nat.lt_succ_of_lt hk, Nat.lt_succ_of_lt hsock', hera'⟩
  · rintro _ ⟨⟩
    have hlog := h.log s hs
    refine ⟨?_, ?_, ?_, ?_, ?_⟩
    · rw [hbase, hchange]
      exact hlog.span
    · rw [hops, hbase]
      exact hlog.above
    · rw [hops, hchange]
      exact hlog.ordered
    · rw [hops, hchange]
      exact hlog.newest
    · rw [hops]
      exact hlog.accepted
  · rintro _ ⟨⟩ sock hpresent
    rcases hparts sock hpresent with rfl | hold
    · refine ⟨Nat.lt_succ_self _, ?_⟩
      intro k c' hc' hsock'
      rcases hget hc' with ⟨-, rfl⟩ | hold
      · exact hera
      · have hlt := (h.socks k c' hold).2.1
        omega
    · obtain ⟨hlt, hall⟩ := h.present s hs sock hold
      refine ⟨Nat.lt_succ_of_lt hlt, ?_⟩
      intro k c' hc' hsock'
      rcases hget hc' with ⟨-, rfl⟩ | hold'
      · exact hera
      · exact hall k c' hold' hsock'
  · rintro _ ⟨⟩ k c' hc' hera'
    rcases hget hc' with ⟨-, rfl⟩ | hold
    · exact hc.quiet hops
    · exact (h.follows s hs k c' hold hera').quiet hops

end

theorem replayFrom_sub (s : DocSession) : ∀ op ∈ s.replayFrom none, op ∈ s.ops := by
  intro op hop
  exact (mem_filter.mp hop).1

theorem Inv.join (h : w.Inv) (user username : Text) (m : AuthMsg) (canWrite : Bool) :
    (w.join now user username m canWrite).Inv := by
  unfold World.join
  split
  · exact h
  rename_i s hs
  split
  · exact h
  rename_i hfresh
  have hentered : Entered s w.sockSeq (s.auth now w.sockSeq user username m canWrite) := entered_auth
  dsimp only
  split
  · rename_i e he
    refine h.turned hs hentered.ops hentered.baseIndex hentered.changeIndex ?_
    intro k hk
    rcases hentered.present k hk with ⟨joined, hok, -⟩ | hold
    · rw [he] at hok
      cases hok
    · exact hold
  · rename_i joined hok
    refine h.enters hs hentered.ops hentered.baseIndex hentered.changeIndex ?_ (le_refl _) rfl rfl ?_
    · intro k hk
      exact (hentered.present k hk).imp (fun hnew => hnew.choose_spec.2) id
    · refine ⟨rfl, ?_, fun _ _ _ hop' => (nomatch hop'), List.Pairwise.nil, fun hne => absurd rfl hne, nofun⟩
      intro op hop
      have hreplay : op ∈ joined.replies.flatMap edits := by
        rw [flatten_nil, append_nil, append_nil] at hop
        exact hop
      rcases @Bundle.auth_fresh s now w.sockSeq user username m canWrite (Bool.eq_false_iff.mpr hfresh) with
        ⟨e, he⟩ | ⟨joined', s', hauth, hedits, -⟩
      · rw [he] at hok
        cases hok
      rw [hauth] at hok
      injection hok with hjoined
      rw [← hjoined, hedits] at hreplay
      split at hreplay
      · cases hreplay
      · exact (h.log s hs).accepted op (replayFrom_sub s op hreplay)

section

variable (h : w.Inv) {s : DocSession} (hs : w.session = some s) {client : Nat} {c : Client}
  (hc : w.clients.get? client = some c) {username : Text} {m : AuthMsg} {canWrite : Bool} {joined : DocSession.Joined}
  (hok : (s.auth now w.sockSeq c.user username (c.asks m) canWrite).1 = .ok joined)
include h hs hc hok

/-- Who comes back and is let in has the document of this session. -/
theorem Inv.era_of_restored (hera : c.era = w.era ∨ s.resurrected = true) : c.era = w.era := by
  rcases hera with hera | hres
  · exact hera
  by_contra hold
  have hne : c.sock ≠ w.sockSeq := Nat.ne_of_lt (h.socks client c hc).2.1
  have hrejoin : (c.asks m).rejoin w.sockSeq = some c.sock := if_neg hne
  have hgone : s.participants.get? c.sock = none := by
    cases hp : s.participants.get? c.sock with
    | none => rfl
    | some p =>
      have hpresent : (s.participants.get? c.sock).isSome := by
        rw [hp]
        rfl
      exact absurd ((h.present s hs c.sock hpresent).2 client c hc rfl) hold
  have hrefused : (s.auth now w.sockSeq c.user username (c.asks m) canWrite).1 = .error .stale :=
    refused_of_resurrected rfl hrejoin hgone hres
  rw [hrefused] at hok
  cases hok

/-- An honest client that is let in again is owed nothing. -/
theorem Inv.nothing_owed (hera : c.era = w.era)
    (htells : Tells s c m) (hhonest : Honest c m) : c.owed.flatten = [] := by
  obtain ⟨hview, op, hlast, htime⟩ := hhonest
  have hpassed : s.restoreOk (s.joinId c.user (c.asks m)) (c.asks m) = true := restoreOk_of_auth hok rfl hview
  exact (h.follows s hs client c hc hera).restored htells h.times hlast htime hpassed

end

section

variable (h : w.Inv)

include h

theorem Inv.restore {client : Nat} {username : Text} {m : AuthMsg} {canWrite : Bool}
    (hmeets : w.Meets now (.restore client username m canWrite)) : (w.restore now client username m canWrite).Inv := by
  unfold World.restore
  split
  · rename_i s c hs hc
    obtain ⟨hera, htells, hhonest⟩ := hmeets s c hs hc
    have hentered : Entered s w.sockSeq (s.auth now w.sockSeq c.user username (c.asks m) canWrite) := entered_auth
    dsimp only
    split
    · rename_i e he
      refine h.turned hs hentered.ops hentered.baseIndex hentered.changeIndex ?_
      intro k hk
      rcases hentered.present k hk with ⟨joined, hok, -⟩ | hold
      · rw [he] at hok
        cases hok
      · exact hold
    · rename_i joined hok
      have hera := h.era_of_restored hs hc hok hera
      have howed : c.owed.flatten = [] := hhonest.elim (h.nothing_owed hs hc hok hera htells) id
      have hfollows := h.follows s hs client c hc hera
      have hclient := (h.socks client c hc).1
      refine h.enters hs hentered.ops hentered.baseIndex hentered.changeIndex ?_ (Nat.le_of_lt hclient) rfl hera ?_
      · intro k hk
        exact (hentered.present k hk).imp (fun hnew => hnew.choose_spec.2) id
      · refine ⟨?_, ?_, fun _ _ _ hop' => (nomatch hop'), List.Pairwise.nil, fun hne => absurd rfl hne, hfollows.kept⟩
        · rw [hfollows.missed, howed, append_nil]
        · intro op hop
          apply hfollows.known op
          rw [howed]
          exact hop
  · exact h

theorem Inv.saveChanges {client : Nat} {m : SaveMsg} (hmeets : w.Meets now (.saveChanges client m)) :
    (w.saveChanges now client m).Inv := by
  unfold World.saveChanges
  split
  · rename_i s c hs hc
    obtain ⟨hback, hsave⟩ := hmeets s c hs hc
    rcases Bundle.saveChanges_cases s now c.sock m (takesNothing hback) with
      ⟨p, replies, f, s', hrun, hedits, hops, hbase, hchange, hparts⟩ | ⟨hrefused, hquiet⟩
    · rw [hrun]
      dsimp only
      rw [hedits]
      have htime : ∀ op ∈ DocSession.records now.ms p s.changeIndex m.changes, op.time = now.ms :=
        fun op hop => records_time hop
      have hnone : m.changes = [] → DocSession.records now.ms p s.changeIndex m.changes = [] := by
        intro hempty
        rw [hempty]
        rfl
      refine ⟨?_, ?_, ?_, ?_, ?_⟩
      · intro k c' hc'
        obtain ⟨c₀, hc₀, rfl⟩ := map_eq_some_iff.mp ((get?_update _ _ _).symm.trans hc')
        have hold := h.socks k c₀ hc₀
        split
        · exact hold
        · exact hold
      · intro op hop
        rcases mem_append.mp hop with hop | hop
        · exact h.times op hop
        · rcases hsave with hempty | ⟨-, -, hms⟩
          · rw [hnone hempty] at hop
            cases hop
          · rw [htime op hop]
            exact hms
      · rintro _ ⟨⟩
        exact (h.log s hs).saves hops hbase hchange
      · rintro _ ⟨⟩ sock hsock
        obtain ⟨hlt, hall⟩ := h.present s hs sock (hparts sock hsock)
        refine ⟨hlt, ?_⟩
        intro k c' hc' hsock'
        obtain ⟨c₀, hc₀, heq⟩ := map_eq_some_iff.mp ((get?_update _ _ _).symm.trans hc')
        have hsame : c'.sock = c₀.sock ∧ c'.era = c₀.era := by
          rw [← heq]
          split
          · exact ⟨rfl, rfl⟩
          · exact ⟨rfl, rfl⟩
        rw [hsame.2]
        exact hall k c₀ hc₀ (hsame.1.symm.trans hsock')
      · rintro _ ⟨⟩ k c' hc' hera
        obtain ⟨c₀, hc₀, heq⟩ := map_eq_some_iff.mp ((get?_update _ _ _).symm.trans hc')
        have hold : c₀.era = w.era → Follows w.accepted w.baked s c₀ := h.follows s hs k c₀ hc₀
        split at heq
        · rename_i hk
          rw [hk, hc] at hc₀
          obtain rfl := some.inj hc₀
          rw [← heq] at hera ⊢
          exact (hold hera).saves hops (hsave.imp hnone fun hs => hs.1)
        · rw [← heq] at hera ⊢
          exact (hold hera).owes hops htime (hsave.imp hnone fun hs => hs.2.1)
    · dsimp only
      split
      · rename_i replies f hok
        exact absurd hok (hrefused replies f)
      · exact h.quiet hs hquiet
  · exact h

theorem Inv.deliver (client : Nat) : (w.deliver client).Inv := by
  unfold World.deliver
  split
  · exact h
  rename_i c hc
  split
  · exact h
  rename_i new rest howed
  split
  · have hget : ∀ {k c'}, (w.clients.put client { c with received := c.received ++ new, owed := rest }).get? k = some c' →
        ∃ c₀, w.clients.get? k = some c₀ ∧ c'.sock = c₀.sock ∧ c'.era = c₀.era ∧
          ∀ s, Follows w.accepted w.baked s c₀ → Follows w.accepted w.baked s c' := by
      intro k c' hput
      rcases get?_put_some.mp hput with ⟨hk, rfl⟩ | ⟨-, hput⟩
      · exact ⟨c, hk ▸ hc, rfl, rfl, fun s hf => hf.receives howed⟩
      · exact ⟨c', hput, rfl, rfl, fun _ hf => hf⟩
    refine ⟨?_, h.times, h.log, ?_, ?_⟩
    · intro k c' hc'
      obtain ⟨c₀, hc₀, hsock, hera, -⟩ := hget hc'
      rw [hsock, hera]
      exact h.socks k c₀ hc₀
    · intro s hs sock hsock
      obtain ⟨hlt, hall⟩ := h.present s hs sock hsock
      refine ⟨hlt, ?_⟩
      intro k c' hc' hsock'
      obtain ⟨c₀, hc₀, hsame, hera, -⟩ := hget hc'
      rw [hera]
      exact hall k c₀ hc₀ (hsame.symm.trans hsock')
    · intro s hs k c' hc' hera'
      obtain ⟨c₀, hc₀, -, hera, hfollows⟩ := hget hc'
      exact hfollows s (h.follows s hs k c₀ hc₀ (hera.symm.trans hera'))
  · exact h

theorem Inv.lose (client : Nat) : (w.lose client).Inv := by
  have hget : ∀ {k c'}, (w.lose client).clients.get? k = some c' →
      ∃ c₀ live, w.clients.get? k = some c₀ ∧ c' = { c₀ with live := live } := by
    intro k c' hc'
    obtain ⟨c₀, hc₀, rfl⟩ := map_eq_some_iff.mp ((get?_update _ _ _).symm.trans hc')
    split
    · exact ⟨c₀, false, hc₀, rfl⟩
    · exact ⟨c₀, c₀.live, hc₀, rfl⟩
  refine ⟨?_, h.times, h.log, ?_, ?_⟩
  · intro k c' hc'
    obtain ⟨c₀, live, hc₀, rfl⟩ := hget hc'
    exact h.socks k c₀ hc₀
  · intro s hs sock hsock
    obtain ⟨hlt, hall⟩ := h.present s hs sock hsock
    refine ⟨hlt, ?_⟩
    intro k c' hc' hsock'
    obtain ⟨c₀, live, hc₀, rfl⟩ := hget hc'
    exact hall k c₀ hc₀ hsock'
  · intro s hs k c' hc' hera
    obtain ⟨c₀, live, hc₀, rfl⟩ := hget hc'
    have hfollows := h.follows s hs k c₀ hc₀ hera
    exact ⟨hfollows.missed, hfollows.known, hfollows.apart, hfollows.frames, hfollows.newest, hfollows.kept⟩

theorem Inv.bundleRefreshed {user : Text} {coverage : Option Int}
    (hmeets : w.Meets now (.bundleRefreshed user coverage)) : (w.bundleRefreshed now user coverage).Inv := by
  unfold World.bundleRefreshed
  split
  · exact h
  rename_i s hs
  have hcompacted : Compacted s (s.bundleRefreshed now user coverage)
      (s.changeIndex ≤ World.bound s user coverage) := compacted (h.log s hs)
  refine ⟨h.socks, h.times, ?_, ?_, ?_⟩
  · rintro _ ⟨⟩
    exact (h.log s hs).compacted hcompacted
  · rintro _ ⟨⟩ sock hsock
    rw [hcompacted.present] at hsock
    exact h.present s hs sock hsock
  · rintro _ ⟨⟩ k c hc hera
    exact (h.follows s hs k c hc hera).compacted hcompacted fun hreached => hmeets s hs hreached k c hc hera

theorem Inv.step (a : Action) (hmeets : w.Meets now a) : (w.step now a).Inv := by
  cases a with
  | registerKey driveId path room => exact h.registerKey driveId path room
  | resurrectKey driveId path room => exact h.resurrectKey driveId path room
  | join user username m canWrite => exact h.join user username m canWrite
  | restore client username m canWrite => exact h.restore hmeets
  | saveChanges client m => exact h.saveChanges hmeets
  | deliver client => exact h.deliver client
  | lose client => exact h.lose client
  | disconnect sock => exact h.call fun s => Quiet.disconnect s now sock
  | lunaSaveLock sock => exact h.call fun s => Quiet.lunaSaveLock s now sock
  | lunaSaveEnd sock => exact h.call fun s => Quiet.lunaSaveEnd s sock
  | bundleRefreshed user coverage => exact h.bundleRefreshed hmeets
  | evictIdle => exact h.evictIdle

theorem Inv.run (steps : List (Clock × Action)) (hmeets : MeetsAll w steps) : (run steps w).Inv := by
  induction steps generalizing w with
  | nil => exact h
  | cons p rest ih =>
    obtain ⟨now, a⟩ := p
    exact ih (h.step a hmeets.1) hmeets.2

end

theorem meetsAll_snoc {steps : List (Clock × Action)} {a : Action} (h : MeetsAll w (steps ++ [(now, a)])) :
    MeetsAll w steps ∧ (run steps w).Meets now a := by
  induction steps generalizing w with
  | nil => exact ⟨trivial, h.1⟩
  | cons p rest ih =>
    obtain ⟨now', a'⟩ := p
    obtain ⟨hfirst, hrest⟩ := h
    exact ⟨⟨hfirst, (ih hrest).1⟩, (ih hrest).2⟩

/-- Who is let in again, and sent the time of the last edit it received, has everything. -/
theorem restored_client_is_complete (steps : List (Clock × Action)) (now : Clock) (client : Nat) (username : Text)
    (m : AuthMsg) (canWrite : Bool) (s : DocSession) (c : Client) (joined : DocSession.Joined)
    (hmeets : MeetsAll start (steps ++ [(now, .restore client username m canWrite)]))
    (hs : (run steps start).session = some s) (hc : (run steps start).clients.get? client = some c)
    (hhonest : Honest c m)
    (hok : (s.auth now (run steps start).sockSeq c.user username (c.asks m) canWrite).1 = .ok joined) :
    (run steps start).Complete s c := by
  obtain ⟨hbefore, hlast⟩ := meetsAll_snoc hmeets
  have hinv := inv_start.run steps hbefore
  obtain ⟨hera, htells, -⟩ := hlast s c hs hc
  have hera := hinv.era_of_restored hs hc hok hera
  have hfollows := hinv.follows s hs client c hc hera
  refine ⟨?_, hfollows.kept⟩
  rw [hfollows.missed, hinv.nothing_owed hs hc hok hera htells hhonest]
  rfl

private def fresh : AuthMsg := ⟨none, [], .absent, none, none, none, none, none, false⟩

/-- What `a` sends when it comes back: its index, and the time of the edit it has received. -/
private def back : AuthMsg := { fresh with indexUser := some 1, lastOtherSaveTime := some 1000 }

private def edit (text : Text) : SaveMsg := ⟨[text], none, true, true, false⟩

/-- `a` receives an edit of `b` and loses its connection. -/
private def lost : List (Clock × Action) :=
  [(⟨0, 0⟩, .registerKey [] [] true), (⟨0, 0⟩, .join ['a'] [] fresh true), (⟨0, 0⟩, .join ['b'] [] fresh true),
    (⟨0, 1000⟩, .saveChanges 2 (edit ['x'])), (⟨0, 1000⟩, .deliver 1), (⟨0, 1000⟩, .lose 1)]

/-- `b` makes another edit meanwhile, and its upload takes both out of the log. -/
private def compactedMeanwhile : List (Clock × Action) :=
  lost ++ [(⟨0, 5000⟩, .saveChanges 2 (edit ['y'])), (⟨0, 5000⟩, .bundleRefreshed ['b'] none)]

theorem restored_client_is_complete_of_two :
    ∃ s c joined, (run lost start).session = some s ∧ (run lost start).clients.get? 1 = some c ∧
      c.received.map OpRecord.change = [['x']] ∧
      (s.auth ⟨0, 9000⟩ (run lost start).sockSeq c.user [] (c.asks back) true).1 = .ok joined ∧
      (run lost start).Complete s c := by
  have hmeets : MeetsAll start (lost ++ [(⟨0, 9000⟩, .restore 1 [] back true)]) := by
    refine ⟨trivial, trivial, trivial, ?_, trivial, trivial, ?_, trivial⟩
    · rintro s c ⟨⟩ ⟨⟩
      refine ⟨fun hback => hback.2.1 rfl, .inr ⟨rfl, nofun, by decide, by decide⟩⟩
    · rintro s c ⟨⟩ ⟨⟩
      refine ⟨.inl rfl, ?_, .inr rfl⟩
      rintro newest ⟨⟩
      refine .inr ⟨by decide, ?_⟩
      rintro t ⟨⟩
      exact .inl rfl
  refine ⟨_, _, _, rfl, rfl, by decide, rfl, ?_⟩
  exact restored_client_is_complete lost ⟨0, 9000⟩ 1 [] back true _ _ _ hmeets rfl rfl ⟨rfl, _, rfl, rfl⟩ rfl

/-- A client is let in again though it never got an edit that an upload took out of the log. -/
theorem restored_client_has_missed_edit :
    ¬ ∀ (steps : List (Clock × Action)) (now : Clock) (client : Nat) (username : Text) (m : AuthMsg) (canWrite : Bool)
        (s : DocSession) (c : Client) (joined : DocSession.Joined), (run steps start).session = some s →
        (run steps start).clients.get? client = some c → Honest c m →
        (s.auth now (run steps start).sockSeq c.user username (c.asks m) canWrite).1 = .ok joined →
        (run steps start).Complete s c := by
  intro h
  have hcomplete := h compactedMeanwhile ⟨0, 9000⟩ 1 [] back true _ _ _ rfl rfl ⟨rfl, _, rfl, rfl⟩ rfl
  have hlen := congrArg length hcomplete.1
  revert hlen
  decide

end World

end LibreServ.Restore
