import LibreServ.OfficeSocket
import LibreServ.OfficeGuards

/-! People who may only read an office document. Nothing they send changes the document, its locks or a save in
progress, as long as no two people go by one name, a reader replaces nobody who holds something, takes back no free
block and rewinds no edits. -/

namespace LibreServ.Office

open List Table ClientState Option
open Files (Text)

variable {s : DocSession} {h' : Sessions}

/-! ### Sessions of the hub -/

def Sessions.Guarded (h : Sessions) : Prop := ∀ key s, h.get? key = some s → s.Guarded

/-- Every session is still there, unharmed. -/
def Leaves (now : Clock) (sock : Nat) (h h' : Sessions) : Prop :=
  ∀ key s, h.get? key = some s → ∃ s', h'.get? key = some s' ∧ Unharmed now sock s s'

section Hub

variable {α : Type} {h : Sessions} {key : Text} {missing : α} {f : DocSession → α × DocSession} {now : Clock} {sock : Nat}

theorem call_get? (key' : Text) :
    (h.call key missing f).2.get? key' = if key' = key then (h.get? key).map fun s => (f s).2 else h.get? key' := by
  unfold Sessions.call
  cases hs : h.get? key with
  | none =>
    simp only
    split
    · rename_i hkey
      rw [hkey, hs]
      rfl
    · rfl
  | some s =>
    rw [get?_put]
    rfl

theorem Sessions.Guarded.call (hg : h.Guarded) (hf : ∀ s, h.get? key = some s → (f s).2.Guarded) :
    (h.call key missing f).2.Guarded := by
  intro key' s' hs'
  rw [call_get?] at hs'
  split at hs'
  · obtain ⟨s, hs, rfl⟩ := map_eq_some_iff.mp hs'
    exact hf s hs
  · exact hg key' s' hs'

theorem Leaves.rfl' : Leaves now sock h h := fun _ s hs => ⟨s, hs, Untouched.rfl'.unharmed⟩

theorem Leaves.call (hsame : ∀ key s, h.get? key = some s → h'.get? key = some s)
    (hf : ∀ s, h.get? key = some s → Unharmed now sock s (f s).2) : Leaves now sock h (h'.call key missing f).2 := by
  intro key' s hs
  have hs' := hsame key' s hs
  by_cases hkey : key' = key
  · refine ⟨(f s).2, ?_, hf s (hkey ▸ hs)⟩
    rw [call_get?, if_pos hkey, ← hkey, hs']
    rfl
  · refine ⟨s, ?_, Untouched.rfl'.unharmed⟩
    rw [call_get?, if_neg hkey, hs']

/-- A second call that only notes the time. -/
theorem Leaves.touched (hl : Leaves now sock h h') :
    Leaves now sock h (h'.call key missing fun s => ((f s).1, s.touch now)).2 := by
  intro key' s hs
  obtain ⟨s', hs', hu⟩ := hl key' s hs
  by_cases hkey : key' = key
  · refine ⟨s'.touch now, ?_, hu.and_then untouched_touch⟩
    rw [call_get?, if_pos hkey, ← hkey, hs']
    rfl
  · exact ⟨s', by rw [call_get?, if_neg hkey, hs'], hu⟩

end Hub

/-! ### Rooms that are made again -/

section Verify

variable {h : Sessions} {env : Env} {key key' token : Text}

/-- A room as it is made for a token whose room is gone. -/
def resurrectedRoom (now : Clock) (s : DocSession) : Prop :=
  ∃ driveId path, s = { DocSession.new now driveId path with resurrected := true }

theorem verifyToken_cases : (h.verifyToken env key token).2 = h ∨
      h.get? key = none ∧ ∃ s, resurrectedRoom env.now s ∧ (h.verifyToken env key token).2 = h.put key s := by
  unfold Sessions.verifyToken
  split
  · exact .inl rfl
  rename_i claims _
  split
  · exact .inl rfl
  split
  · exact .inl rfl
  split
  · exact .inl rfl
  split
  · split
    · exact .inl rfl
    · exact .inl rfl
  rename_i hnone
  unfold Sessions.resurrectKey
  rw [hnone]
  simp only
  by_cases hfull : maxDocSessions ≤ h.rows.length
  · rw [if_pos hfull]
    exact .inl rfl
  · rw [if_neg hfull]
    exact .inr ⟨trivial, _, ⟨claims.driveId, claims.path, rfl⟩, rfl⟩

theorem verifyToken_keeps (hs : h.get? key' = some s) :
    (h.verifyToken env key token).2.get? key' = some s := by
  rcases @verifyToken_cases h env key token with hsame | ⟨hnone, s', -, hput⟩
  · rw [hsame, hs]
  · have hne : key' ≠ key := by
      rintro rfl
      rw [hnone] at hs
      cases hs
    rw [hput, get?_put_of_ne _ _ hne, hs]

theorem verifyToken_new (hs : (h.verifyToken env key token).2.get? key' = some s) :
    h.get? key' = some s ∨ resurrectedRoom env.now s := by
  rcases @verifyToken_cases h env key token with hsame | ⟨-, s', hnew, hput⟩
  · rw [hsame] at hs
    exact .inl hs
  · rw [hput] at hs
    rcases get?_put_some.mp hs with ⟨-, rfl⟩ | ⟨-, hs⟩
    · exact .inr hnew
    · exact .inl hs

theorem resurrectedRoom.guarded (h : resurrectedRoom env.now s) : s.Guarded := by
  obtain ⟨driveId, path, rfl⟩ := h
  exact (guarded_new env.now driveId path).of_same rfl rfl rfl rfl rfl rfl

/-- Nobody is there yet, and nobody can come back to it. -/
theorem resurrectedRoom.joins (h : resurrectedRoom env.now s) (now : Clock) (sock : Nat)
    (idOriginal : Text) (m : AuthMsg) (canWrite : Bool) : Joins s now sock idOriginal m canWrite := by
  obtain ⟨driveId, path, rfl⟩ := h
  unfold Joins
  split
  · intro other p hp
    cases hp
  constructor
  · intro old p _ hp
    cases hp
  · intro _ _ hera
    unfold DocSession.deadEra at hera
    cases hrejoin : m.rejoin sock with
    | none | some old =>
      rw [hrejoin] at hera
      cases hera
  · intro k l hl
    cases hl
  · intro other p hp
    cases hp

theorem Sessions.Guarded.verifyToken (hg : h.Guarded) : (h.verifyToken env key token).2.Guarded := by
  intro key' s hs
  rcases verifyToken_new hs with hold | hnew
  · exact hg key' s hold
  · exact hnew.guarded

end Verify

/-! ### Messages -/

/-- The message comes from somebody who may only read: who joins with such a token, or has joined with one. -/
def World.ReadOnly (w : World) (sock : Nat) (msg : Message) : Prop :=
  ∃ c, w.clients.get? sock = some c ∧
    match msg with
    | .auth _ => ∃ claims, c.claims = some claims ∧ claims.write = false
    | _ => ∃ s p, w.sessions.get? c.key = some s ∧ s.participants.get? sock = some p ∧ p.write = false

/-- Joins as above, and no reader goes back over edits with `unLock`, `releaseLocks` or `unLockDocument`. -/
def Careful (env : Env) (a : Action) (w : World) : Prop :=
  match a with
  | .message sock (.auth m) =>
    ∀ c claims s, w.clients.get? sock = some c → c.claims = some claims → w.sessions.get? c.key = some s →
      Joins s env.now sock claims.sub m claims.write
  | .message sock (.unlock m) =>
    ∀ c s p, w.clients.get? sock = some c → w.sessions.get? c.key = some s → s.participants.get? sock = some p →
      p.write = false → RewindsNothing s m
  | _ => True

section Messages

variable {env : Env} {h : Sessions} {sock : Nat} {c c' : ClientState} {claims : OfficeClaims} {m : AuthMsg} {msg : Message}

theorem accessStillValid_eq (hc : c.claims = some claims) (hvalid : c.accessStillValid env = some c') :
    c' = { c with canWrite := claims.write } := by
  unfold accessStillValid at hvalid
  rw [hc] at hvalid
  simp only at hvalid
  split at hvalid
  · cases hvalid
  rename_i write _
  split at hvalid
  · cases hvalid
  rename_i hwrite
  have hsame : (claims.write && write) = claims.write := by
    cases hw : claims.write with
    | false => rfl
    | true =>
      cases write with
      | true => rfl
      | false => exact absurd ⟨hw, Bool.false_ne_true⟩ hwrite
  rw [hsame] at hvalid
  rw [← some.inj hvalid, hc]

theorem handleAuthed_sessions : (c.handleAuthed env h sock claims m).sessions = (h.call c.key (.error .unknownKey)
          (fun s => s.auth env.now sock claims.sub (usernameOf env claims) m c.canWrite)).2 ∨
      (c.handleAuthed env h sock claims m).sessions = ((h.call c.key (.error .unknownKey)
          (fun s => s.auth env.now sock claims.sub (usernameOf env claims) m c.canWrite)).2.call
            c.key Frame.documentMissing fun s => (.documentOpen, s.touch env.now)).2 := by
  unfold handleAuthed
  simp only
  split
  · exact .inl rfl
  · exact .inl rfl
  · split
    · split
      · exact .inl rfl
      · exact .inr rfl
    · exact .inl rfl

theorem handleAuth_sessions {P : Sessions → Prop} (hstay : P h) (hverify : ∀ token, P (h.verifyToken env c.key token).2)
    (hauthed : P (c.handleAuthed env h sock claims m).sessions)
    (hboth : ∀ token, P (c.handleAuthed env (h.verifyToken env c.key token).2 sock claims m).sessions) :
    P (c.handleAuth env h sock claims m).sessions := by
  unfold handleAuth
  split
  · exact hstay
  split
  · exact hauthed
  split
  · exact hstay
  have hv := hverify m.jwt
  have hb := hboth m.jwt
  split
  · rename_i h' heq
    rw [heq] at hv
    exact hv
  · rename_i h' heq
    rw [heq] at hb
    exact hb

theorem Leaves.handleAuthed (hsame : ∀ key s, h.get? key = some s → h'.get? key = some s)
    (hread : c.canWrite = false) (hjoin : ∀ s, h.get? c.key = some s → ReaderJoins s env.now sock claims.sub m) :
    Leaves env.now sock h (c.handleAuthed env h' sock claims m).sessions := by
  have hcall : Leaves env.now sock h (h'.call c.key (.error .unknownKey)
      (fun s => s.auth env.now sock claims.sub (usernameOf env claims) m c.canWrite)).2 := by
    refine Leaves.call hsame fun s hs => ?_
    rw [hread]
    exact auth_reader (hjoin s hs)
  rcases @handleAuthed_sessions env h' sock c claims m with heq | heq
  · rw [heq]
    exact hcall
  · rw [heq]
    exact hcall.touched (f := fun s => (Frame.documentOpen, s))

theorem Leaves.handleAuth (hread : c.canWrite = false)
    (hjoin : ∀ s, h.get? c.key = some s → ReaderJoins s env.now sock claims.sub m) :
    Leaves env.now sock h (c.handleAuth env h sock claims m).sessions := by
  apply handleAuth_sessions (P := Leaves env.now sock h)
  · exact Leaves.rfl'
  · exact fun token key s hs => ⟨s, verifyToken_keeps hs, Untouched.rfl'.unharmed⟩
  · exact Leaves.handleAuthed (fun _ _ hs => hs) hread hjoin
  · exact fun token => Leaves.handleAuthed (fun _ _ hs => verifyToken_keeps hs) hread hjoin

theorem Sessions.Guarded.handleAuthed (hg : h.Guarded)
    (hjoin : ∀ s, h.get? c.key = some s → Joins s env.now sock claims.sub m c.canWrite) :
    (c.handleAuthed env h sock claims m).sessions.Guarded := by
  have hcall : (h.call c.key (.error .unknownKey)
      (fun s => s.auth env.now sock claims.sub (usernameOf env claims) m c.canWrite)).2.Guarded :=
    hg.call fun s hs => auth_guarded (hg c.key s hs) (hjoin s hs)
  rcases @handleAuthed_sessions env h sock c claims m with heq | heq
  · rw [heq]
    exact hcall
  · rw [heq]
    exact hcall.call fun s hs => (hcall c.key s hs).touch

theorem Sessions.Guarded.handleAuth (hg : h.Guarded)
    (hjoin : ∀ s, h.get? c.key = some s → Joins s env.now sock claims.sub m c.canWrite) :
    (c.handleAuth env h sock claims m).sessions.Guarded := by
  apply handleAuth_sessions (P := Sessions.Guarded)
  · exact hg
  · exact fun token => hg.verifyToken
  · exact hg.handleAuthed hjoin
  · intro token
    refine hg.verifyToken.handleAuthed fun s hs => ?_
    rcases verifyToken_new hs with hold | hnew
    · exact hjoin s hold
    · exact hnew.joins env.now sock claims.sub m c.canWrite

theorem answered_sessions (r : Except HubError (List Frame × Option Frame) × Sessions) :
    (c.answered r).sessions = r.2 := by
  unfold answered
  split
  · rfl
  · rfl

theorem Leaves.dispatch (hg : h.Guarded) (hread : c.canWrite = claims.write)
    (hwho : match msg with
      | .auth _ => claims.write = false
      | _ => ∃ s p, h.get? c.key = some s ∧ s.participants.get? sock = some p ∧ p.write = false)
    (hauth : ∀ m, msg = .auth m → ∀ s, h.get? c.key = some s → Joins s env.now sock claims.sub m claims.write)
    (hunlock : ∀ m, msg = .unlock m → ∀ s p, h.get? c.key = some s → s.participants.get? sock = some p →
      p.write = false → RewindsNothing s m) :
    Leaves env.now sock h (c.dispatch env h sock claims msg).sessions := by
  cases msg with
  | auth m =>
    refine Leaves.handleAuth (hread.trans hwho) fun s hs => ?_
    have hjoin := hauth m rfl s hs
    rw [Joins, if_neg (by rw [hwho]; exact Bool.false_ne_true)] at hjoin
    exact hjoin
  | saveChanges m =>
    obtain ⟨s, p, hs, hp, hw⟩ := hwho
    have hcall : Leaves env.now sock h (h.call c.key (.error .unknownKey) (fun s => s.saveChanges env.now sock m)).2 := by
      refine Leaves.call (fun _ _ h => h) fun s' hs' => ?_
      obtain rfl := some.inj (hs.symm.trans hs')
      exact (saveChanges_reader hp hw m).unharmed
    unfold dispatch
    rw [answered_sessions]
    exact hcall
  | getLock block =>
    obtain ⟨s, p, hs, hp, hw⟩ := hwho
    have hcall : Leaves env.now sock h (h.call c.key (.error .unknownKey) (fun s => s.getLock env.now sock block)).2 := by
      refine Leaves.call (fun _ _ h => h) fun s' hs' => ?_
      obtain rfl := some.inj (hs.symm.trans hs')
      exact (getLock_reader hp hw block).unharmed
    unfold dispatch
    rw [answered_sessions]
    exact hcall
  | unlock m =>
    obtain ⟨s, p, hs, hp, hw⟩ := hwho
    have hcall : Leaves env.now sock h (h.call c.key (.error .unknownKey) (fun s => s.unlock env.now sock m)).2 := by
      refine Leaves.call (fun _ _ h => h) fun s' hs' => ?_
      obtain rfl := some.inj (hs.symm.trans hs')
      exact unlock_reader (hg _ s hs) hp hw (hunlock m rfl s p hs hp hw)
    unfold dispatch
    rw [answered_sessions]
    exact hcall
  | isSaveLock =>
    obtain ⟨s, p, hs, hp, hw⟩ := hwho
    refine Leaves.call (fun _ _ h => h) fun s' hs' => ?_
    obtain rfl := some.inj (hs.symm.trans hs')
    exact (isSaveLock_reader hp hw).unharmed
  | lunaSaveLock =>
    obtain ⟨s, p, hs, hp, hw⟩ := hwho
    refine Leaves.call (fun _ _ h => h) fun s' hs' => ?_
    obtain rfl := some.inj (hs.symm.trans hs')
    exact (lunaSaveLock_reader hp hw).unharmed
  | unSaveLock => exact Leaves.call (fun _ _ h => h) fun s hs => unSaveLock_unharmed
  | lunaSaveEnd => exact Leaves.call (fun _ _ h => h) fun s hs => lunaSaveEnd_unharmed
  | cursor | message | lunaSaved | getMessages | getUsers | getLocks | close | other | untyped => exact Leaves.rfl'

theorem Sessions.Guarded.dispatch (hg : h.Guarded) (hread : c.canWrite = claims.write)
    (hauth : ∀ m, msg = .auth m → ∀ s, h.get? c.key = some s → Joins s env.now sock claims.sub m claims.write) :
    (c.dispatch env h sock claims msg).sessions.Guarded := by
  cases msg with
  | auth m =>
    refine hg.handleAuth fun s hs => ?_
    rw [hread]
    exact hauth m rfl s hs
  | saveChanges m =>
    unfold dispatch
    rw [answered_sessions]
    exact hg.call fun s hs => (hg c.key s hs).saveChanges m
  | getLock block =>
    unfold dispatch
    rw [answered_sessions]
    exact hg.call fun s hs => (hg c.key s hs).getLock block
  | unlock m =>
    unfold dispatch
    rw [answered_sessions]
    exact hg.call fun s hs => (hg c.key s hs).unlock m
  | isSaveLock => exact hg.call fun s hs => (hg c.key s hs).isSaveLock
  | unSaveLock => exact hg.call fun s hs => (hg c.key s hs).unSaveLock
  | lunaSaveLock => exact hg.call fun s hs => (hg c.key s hs).lunaSaveLock
  | lunaSaveEnd => exact hg.call fun s hs => (hg c.key s hs).lunaSaveEnd
  | cursor | message | lunaSaved | getMessages | getUsers | getLocks | close | other | untyped => exact hg

end Messages

/-! ### Runs -/

/-- Every action of the run is careful where it happens. -/
def CarefulRun : List (Env × Action) → World → Prop
  | [], _ => True
  | (env, a) :: rest, w => Careful env a w ∧ CarefulRun rest (w.step env a)

section Runs

variable {w : World} {env : Env} {sock : Nat} {msg : Message}

theorem handled_sessions (r : Handled) : (w.handled sock r).sessions = r.sessions := rfl

/-- What a message does to the sessions. -/
theorem message_cases : (w.step env (.message sock msg)).sessions = w.sessions ∨
      ∃ c claims, w.clients.get? sock = some c ∧ c.claims = some claims ∧ (w.step env (.message sock msg)).sessions =
          ({ c with canWrite := claims.write }.dispatch env w.sessions sock claims msg).sessions := by
  have hstep : w.step env (.message sock msg) = w.packet sock fun c => c.handleMessage env w.sessions sock msg := rfl
  rw [hstep]
  unfold World.packet
  cases hc : w.clients.get? sock with
  | none => exact .inl rfl
  | some c =>
    simp only
    split
    · exact .inl rfl
    unfold handleMessage
    split
    · exact .inl rfl
    · split
      · rename_i claims c' hclaims hvalid
        refine .inr ⟨c, claims, rfl, hclaims, ?_⟩
        rw [handled_sessions, accessStillValid_eq hclaims hvalid]
      · exact .inl rfl

theorem Careful.auth {c : ClientState} {claims : OfficeClaims} (h : Careful env (.message sock msg) w)
    (hc : w.clients.get? sock = some c) (hclaims : c.claims = some claims) :
    ∀ m, msg = .auth m → ∀ s, w.sessions.get? c.key = some s → Joins s env.now sock claims.sub m claims.write := by
  rintro m rfl s hs
  exact h c claims s hc hclaims hs

theorem Careful.unlock {c : ClientState} (h : Careful env (.message sock msg) w) (hc : w.clients.get? sock = some c) :
    ∀ m, msg = .unlock m → ∀ s p, w.sessions.get? c.key = some s → s.participants.get? sock = some p →
      p.write = false → RewindsNothing s m := by
  rintro m rfl s p hs hp hread
  exact h c s p hc hs hp hread

variable (hg : w.sessions.Guarded)

include hg

theorem ReadOnly.leaves (hread : w.ReadOnly sock msg) (hcare : Careful env (.message sock msg) w) :
    Leaves env.now sock w.sessions (w.step env (.message sock msg)).sessions := by
  rcases @message_cases w env sock msg with hsame | ⟨c, claims, hc, hclaims, hout⟩
  · rw [hsame]
    exact Leaves.rfl'
  rw [hout]
  have hauth := hcare.auth hc hclaims
  have hunlock := hcare.unlock hc
  refine Leaves.dispatch (c := { c with canWrite := claims.write }) hg rfl ?_ hauth hunlock
  obtain ⟨c', hc', hwho⟩ := hread
  obtain rfl := some.inj (hc.symm.trans hc')
  cases msg with
  | auth m =>
    obtain ⟨claims', hclaims', hwrite⟩ := hwho
    obtain rfl := some.inj (hclaims.symm.trans hclaims')
    exact hwrite
  | _ => exact hwho

theorem World.Guarded.step {a : Action} (hcare : Careful env a w) :
    (w.step env a).sessions.Guarded := by
  cases a with
  | opened key => exact hg
  | evictIdle =>
    intro key s hs
    have hs : (w.sessions.keep _).get? key = some s := hs
    rw [get?_keep_some] at hs
    exact hg key s hs.1
  | bundleRefreshed key user coverage => exact hg.call fun s hs => (hg key s hs).bundleRefreshed user coverage
  | ended sock =>
    simp only [World.step]
    split
    · exact hg
    · exact hg.call fun s hs => (hg _ s hs).disconnect
  | registerKey key driveId path =>
    show (w.sessions.registerKey env.now key driveId path).2.Guarded
    unfold Sessions.registerKey
    split
    · rename_i s hs
      intro key' s' hs'
      rcases get?_put_some.mp hs' with ⟨-, rfl⟩ | ⟨-, hs'⟩
      · exact (hg key s hs).of_same rfl rfl rfl rfl rfl rfl
      · exact hg key' s' hs'
    · split
      · exact hg
      · intro key' s' hs'
        rcases get?_put_some.mp hs' with ⟨-, rfl⟩ | ⟨-, hs'⟩
        · exact guarded_new env.now driveId path
        · exact hg key' s' hs'
  | claimLiveKey driveId path =>
    show (w.sessions.claimLiveKey env.now driveId path).2.Guarded
    unfold Sessions.claimLiveKey
    simp only
    split
    · exact hg
    rename_i key s hfind
    intro key' s' hs'
    rcases get?_put_some.mp hs' with ⟨-, rfl⟩ | ⟨-, hs'⟩
    · have hs := mem_rows.mp (mem_of_find?_eq_some hfind)
      exact (hg key s hs).of_same rfl rfl rfl rfl rfl rfl
    · exact hg key' s' hs'
  | connect sock docid token =>
    show (w.packet sock _).sessions.Guarded
    unfold World.packet
    split
    · exact hg
    split
    · exact hg
    rename_i c _ _
    have hverify : (w.sessions.verifyToken env (docid.getD c.key) token).2.Guarded := hg.verifyToken
    unfold connect
    simp only
    split
    · rename_i claims write h heq
      rw [heq] at hverify
      split
      · exact hverify
      · exact hverify
    · rename_i h heq
      rw [heq] at hverify
      exact hverify
  | message sock msg =>
    rcases @message_cases w env sock msg with hsame | ⟨c, claims, hc, hclaims, hout⟩
    · rw [hsame]
      exact hg
    · rw [hout]
      have hauth := hcare.auth hc hclaims
      exact Sessions.Guarded.dispatch (c := { c with canWrite := claims.write }) hg rfl hauth

theorem World.Guarded.run {steps : List (Env × Action)} (hcare : CarefulRun steps w) :
    (World.run steps w).sessions.Guarded := by
  induction steps generalizing w with
  | nil => exact hg
  | cons first rest ih => exact ih (World.Guarded.step hg hcare.1) hcare.2

end Runs

/-- **Readers change nothing.** After any run whose joins and undos are careful, no lock stands under the name of
somebody who may only read; and whatever such a person sends next, if that is careful too, every session keeps its
edits, its indexes, its locks and the live saves of other sockets. -/
theorem readers_change_nothing (steps : List (Env × Action)) (hcare : CarefulRun steps World.empty) :
    (∀ key s, (World.run steps World.empty).sessions.get? key = some s →
      ∀ sock p, s.participants.get? sock = some p → p.write = false →
        ∀ k l, s.locks.get? k = some l → l.user ≠ p.id) ∧
      ∀ env sock msg, (World.run steps World.empty).ReadOnly sock msg →
        Careful env (.message sock msg) (World.run steps World.empty) →
        ∀ key s, (World.run steps World.empty).sessions.get? key = some s →
          ∃ s', ((World.run steps World.empty).step env (.message sock msg)).sessions.get? key = some s' ∧
            Unharmed env.now sock s s' := by
  have hstart : World.empty.sessions.Guarded := fun _ _ hs => nomatch hs
  have hg := World.Guarded.run hstart hcare
  constructor
  · intro key s hs
    exact (hg key s hs).fenced.locks
  · intro env sock msg hread hnext
    exact ReadOnly.leaves hg hread hnext

/-! Ann edits `plan.docx`, Bob may read it. -/

def planKey : Text := "plan".toList

def planClaims (sub : String) (write : Bool) : OfficeClaims :=
  ⟨sub.toList, none, some planKey, some "b1".toList, "main".toList, "plan.docx".toList, write⟩

def planEnv : Env where
  now := ⟨0, 1000⟩
  verifyOfficeToken := fun token => some (if token = ['w'] then planClaims "ann" true else planClaims "bob" false)
  currentOfficeAccess := fun claims => some claims.write
  displayName := fun sub => sub

def planAuth (jwt : Text) : AuthMsg := ⟨some planKey, jwt, .null, none, none, none, none, none, false⟩

def planOpened : List Action :=
  [.registerKey planKey "main".toList "plan.docx".toList,
    .opened planKey, .connect 1 none ['w'], .message 1 (.auth (planAuth ['w'])),
    .opened planKey, .connect 2 none ['r'], .message 2 (.auth (planAuth ['r']))]

def annEdits : Action := .message 1 (.saveChanges ⟨["insert".toList], none, true, true, true⟩)

/-- Bob lets go of whatever he holds. -/
def bobUnlocks (deleteIndex : Option Int) : Message := .unlock ⟨.unLockDocument, deleteIndex, none, true, false⟩

def planRun (actions : List Action) : World := World.run (actions.map fun a => (planEnv, a)) World.empty

theorem readers_change_nothing_of_bob : ∃ s s', (planRun (planOpened ++ [annEdits])).sessions.get? planKey = some s ∧
      ((planRun (planOpened ++ [annEdits])).step planEnv (.message 2 (bobUnlocks none))).sessions.get? planKey =
        some s' ∧
      Unharmed planEnv.now 2 s s' ∧ s.ops.length = 1 := by
  have hcare : CarefulRun ((planOpened ++ [annEdits]).map fun a => (planEnv, a)) World.empty := by
    refine ⟨trivial, trivial, trivial, ?_, trivial, trivial, ?_, trivial, trivial⟩
    · intro c claims s hc hclaims hs
      cases hc
      cases hclaims
      cases hs
      intro other p hp
      cases hp
    · intro c claims s hc hclaims hs
      cases hc
      cases hclaims
      cases hs
      constructor
      · intro old p hrejoin
        cases hrejoin
      · intro hrestore
        cases hrestore
      · intro k l hl
        cases hl
      · intro other p hp _ _ _
        obtain ⟨-, rfl⟩ := Prod.mk.inj (mem_singleton.mp (mem_rows.mpr hp))
        decide +kernel
  have hread : (planRun (planOpened ++ [annEdits])).ReadOnly 2 (bobUnlocks none) := ⟨_, rfl, _, _, rfl, rfl, rfl⟩
  have hnext : Careful planEnv (.message 2 (bobUnlocks none)) (planRun (planOpened ++ [annEdits])) :=
    fun _ _ _ _ _ _ _ i hi => nomatch hi
  obtain ⟨s', hs', hu⟩ := (readers_change_nothing _ hcare).2 planEnv 2 (bobUnlocks none) hread hnext planKey _ rfl
  exact ⟨_, s', rfl, hs', hu, by decide +kernel⟩

theorem reader_rewinds_edits : (planRun (planOpened ++ [annEdits])).ReadOnly 2 (bobUnlocks (some 0)) ∧
      ((planRun (planOpened ++ [annEdits])).sessions.get? planKey).map (fun s => s.ops.length) = some 1 ∧
      (((planRun (planOpened ++ [annEdits])).step planEnv (.message 2 (bobUnlocks (some 0)))).sessions.get? planKey).map
        (fun s => s.ops.length) = some 0 := by
  refine ⟨⟨_, rfl, _, _, rfl, rfl, rfl⟩, ?_, ?_⟩
  · decide +kernel
  · decide +kernel

end LibreServ.Office
