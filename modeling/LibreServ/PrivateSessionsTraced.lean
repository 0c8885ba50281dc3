import LibreServ.PrivateSessions

/-! What stands behind the rows of private sessions. Over the answered calls, every row of `private_challenges` and of
`private_sessions` is traced to the call that wrote it; a spent challenge leaves no row, so what was issued once is
used once. The tables know only hashes, and so do the invariants. -/

namespace LibreServ.PrivateOpen

open List Option Table Except
open Files (Text)
open Cloud (Bytes Bytes32 bytesToHex)

variable {row : Challenge}

variable (c : Primitives)

/-! ### Answered calls -/

/-- What a call that opened a session was asked, and the token it returned. -/
structure Opening where
  scope : Text
  challengeHex : Text
  sigHex : Text
  token : Text
  deriving DecidableEq

namespace Entry

/-- The challenge a call issued. -/
def issued (e : Entry) : Option Text :=
  match e.call, e.answer with
  | .newPrivateChallenge _, .challenge challenge _ => some challenge
  | _, _ => none

/-- The session a call opened. -/
def opened (e : Entry) : Option Opening :=
  match e.call, e.answer with
  | .openPrivateSession scope challengeHex sigHex _, .token token _ => some ⟨scope, challengeHex, sigHex, token⟩
  | _, _ => none

/-- The same account, Luna and link. -/
def SameCaller (e e' : Entry) : Prop :=
  e.scope.account = e'.scope.account ∧ e.scope.luna = e'.scope.luna ∧ e.link = e'.link

end Entry

/-- The record stored for a scope, signed with the Luna's key. -/
def HasScopeRecord (o : Outside) (account luna scope : Text) (rec : ScopeRecord) : Prop :=
  rec.lunaId = luna ∧ rec.scope = scope ∧
    ∃ signingHex data, o.signingPublic account luna = some signingHex ∧
      o.get account luna (.record "pscopes".toList scope) = .data data ∧
      parseScopeRecord c data signingHex = some rec

/-- The call sent something of a private scope, on this token: a pack with the scope's tag, while the scope has a
record, or a private snapshot record, whose name begins with the scope. -/
inductive Entry.Sends (e : Entry) : Text → Text → Prop where
  | pack {packId token bytes scope rec} (call : e.call = .writePack packId token) (answer : e.answer = .pack bytes)
      (tag : e.outside.packScope e.scope.account e.scope.luna packId = some scope)
      (record : HasScopeRecord c e.outside e.scope.account e.scope.luna scope rec) : e.Sends scope token
  | record {token recs rec scope rest} (call : e.call = .writeRecords "psnapshots".toList token)
      (answer : e.answer = .records recs) (sent : rec ∈ recs) (name : rec.name = scope ++ '.' :: rest)
      (dotless : '.' ∉ scope) : e.Sends scope token

/-! ### What a call does to the tables -/

namespace State

/-- Rows may have gone, and nothing else changed. -/
structure Shrinks (st st' : State) : Prop where
  challenges : ∀ h row, st'.challenges.get? h = some row → st.challenges.get? h = some row
  sessions : ∀ h row, st'.sessions.get? h = some row → st.sessions.get? h = some row
  links : st'.links = st.links
  nextLink : st'.nextLink = st.nextLink
  outside : st'.outside = st.outside

theorem Shrinks.refl (st : State) : st.Shrinks st :=
  ⟨fun _ _ h => h, fun _ _ h => h, rfl, rfl, rfl⟩

theorem shrinks_cleaned (st : State) (now : Int) : st.Shrinks (st.cleaned now) where
  challenges h row hrow := by
    rw [cleaned, Table.get?_keep, filter_eq_some_iff] at hrow
    exact hrow.1
  sessions h row hrow := by
    rw [cleaned, Table.get?_keep, filter_eq_some_iff] at hrow
    exact hrow.1
  links := rfl
  nextLink := rfl
  outside := rfl

/-- The checks behind a session: the record, whose it is, and the signature. -/
structure Checked (o : Outside) (s : ReadScope) (link : Option Nat) (op : Opening) (rec : ScopeRecord) : Prop where
  mayOpen : mayOpen s link = true
  record : loadScopeRecord c o s op.scope = .ok (some rec)
  user : s.kind = .user → scopePart c rec.userId = s.value
  signature : ∃ challenge sig, unhex (c.lower op.challengeHex) = some challenge ∧ unhex op.sigHex = some sig ∧
    lunaVerify c rec.authPublic "private-open" (openMessage s.luna op.scope challenge) sig = true

/-- Everything a call can do to the tables, with its answer. -/
inductive Effect (st : State) (s : ReadScope) (link : Option Nat) (now : Int) : Call → Answer → State → Prop where
  | issued {random st₁} (shrinks : st.Shrinks st₁) :
      Effect st s link now (.newPrivateChallenge random)
        (.challenge (bytesToHex random.val) (unix now + privateChallengeTTL))
        { st₁ with
          challenges := st₁.challenges.put (hashToken c (bytesToHex random.val))
            ⟨s.account, s.luna, link, unix now + privateChallengeTTL⟩ }
  | opened {scope challengeHex sigHex random rec}
      (has : st.hasChallenge c s link (c.lower challengeHex) now = true)
      (checked : Checked c st.outside s link ⟨scope, challengeHex, sigHex, bytesToHex random.val⟩ rec) :
      Effect st s link now (.openPrivateSession scope challengeHex sigHex random)
        (.token (bytesToHex random.val) (unix now + privateSessionTTL))
        { st with
          challenges := st.challenges.erase (hashToken c (c.lower challengeHex))
          sessions := st.sessions.put (hashToken c (bytesToHex random.val))
            ⟨s.account, s.luna, scope, link, unix now + privateSessionTTL⟩ }
  | other {call answer st'} (issues : ∀ challenge expiresAt, answer ≠ .challenge challenge expiresAt)
      (opens : ∀ token expiresAt, answer ≠ .token token expiresAt) (shrinks : st.Shrinks st') :
      Effect st s link now call answer st'

variable {c} {st st' : State} {s : ReadScope} {link : Option Nat} {now : Int}

theorem Effect.refused {call : Call} {status : Nat} {message : String} (h : st.Shrinks st') :
    Effect c st s link now call (.error status message) st' :=
  .other (nofun) (nofun) h

theorem effect_newPrivateChallenge (random : Bytes32) :
    Effect c st s link now (.newPrivateChallenge random) (st.newPrivateChallenge c s link random now).1
      (st.newPrivateChallenge c s link random now).2 := by
  have hclean := st.shrinks_cleaned now
  simp only [newPrivateChallenge]
  split
  · exact Effect.refused hclean
  · split
    · exact Effect.refused hclean
    · exact Effect.issued hclean

theorem shrinks_spent (h : Text) : st.Shrinks { st with challenges := st.challenges.erase h } where
  challenges h' row hrow := by
    exact (get?_erase_some.mp hrow).2
  sessions _ _ hrow := hrow
  links := rfl
  nextLink := rfl
  outside := rfl

theorem effect_openPrivateSession (scope challengeHex sigHex : Text) (random : Bytes32) :
    Effect c st s link now (.openPrivateSession scope challengeHex sigHex random)
      (st.openPrivateSession c s link scope challengeHex sigHex random now).1
      (st.openPrivateSession c s link scope challengeHex sigHex random now).2 := by
  have hspent := st.shrinks_spent (hashToken c (c.lower challengeHex))
  simp only [openPrivateSession]
  split
  · rename_i challenge sig hchallenge hsig
    split
    · exact Effect.refused (Shrinks.refl st)
    split
    · exact Effect.refused (Shrinks.refl st)
    rename_i hmay
    split
    · exact Effect.refused (Shrinks.refl st)
    rename_i hhas
    simp only [openSpent]
    split
    · exact Effect.refused hspent
    · exact Effect.refused hspent
    · rename_i rec hrec
      split
      · exact Effect.refused hspent
      split
      · exact Effect.refused hspent
      rename_i huser
      split
      · exact Effect.refused hspent
      rename_i hverify
      split
      · exact Effect.refused hspent
      have huser' : s.kind = .user → scopePart c rec.userId = s.value := by
        intro hkind
        by_contra hne
        exact huser ⟨hkind, hne⟩
      have hchecked : Checked c st.outside s link
          ⟨scope, challengeHex, sigHex, bytesToHex random.val⟩ rec :=
        ⟨Bool.eq_true_of_not_eq_false hmay, hrec, huser', challenge, sig, hchallenge, hsig,
          Bool.eq_true_of_not_eq_false hverify⟩
      exact Effect.opened (Bool.eq_true_of_not_eq_false hhas) hchecked
  · exact Effect.refused (Shrinks.refl st)

theorem shrinks_packScopeCache (cache : Table Nat (List Text × Int)) :
    st.Shrinks { st with packScopeCache := cache } :=
  ⟨fun _ _ h => h, fun _ _ h => h, rfl, rfl, rfl⟩

theorem shrinks_rebuildPackScopes {id : Nat} {scopes : List Text}
    (h : st.rebuildPackScopes c s id now = .ok (scopes, st')) : st.Shrinks st' := by
  rw [rebuildPackScopes] at h
  cases hload : loadPackScopes c st.outside s with
  | error f => simp [hload, Except.map] at h
  | ok found =>
    simp only [hload, Except.map, ok.injEq, Prod.mk.injEq] at h
    rw [← h.2]
    exact shrinks_packScopeCache _

theorem shrinks_allowedPackScopes {scopes : List Text}
    (h : st.allowedPackScopes c s link now = .ok (scopes, st')) : st.Shrinks st' := by
  unfold allowedPackScopes at h
  split at h
  · cases hload : loadPackScopes c st.outside s with
    | error f => simp [hload, Except.map] at h
    | ok found =>
      simp only [hload, Except.map, ok.injEq, Prod.mk.injEq] at h
      rw [← h.2]
      exact Shrinks.refl st
  · split at h
    · split at h
      · simp only [ok.injEq, Prod.mk.injEq] at h
        rw [← h.2]
        exact Shrinks.refl st
      · exact shrinks_rebuildPackScopes h
    · exact shrinks_rebuildPackScopes h

theorem shrinks_packAllowed (packScope : Text) : st.Shrinks (st.packAllowed c s link packScope now).2 := by
  rw [packAllowed]
  split
  · exact Shrinks.refl st
  · split
    · exact Shrinks.refl st
    · rename_i hallowed
      exact shrinks_allowedPackScopes hallowed

theorem sendPack_cases (st : State) (s : ReadScope) (packId : Text) :
    (∃ bytes, st.sendPack s packId = .pack bytes) ∨ st.sendPack s packId = .error 404 packGoneMessage := by
  rw [sendPack]
  split
  · exact .inl ⟨_, rfl⟩
  · exact .inr rfl

/-- A pack or a refusal, and neither a challenge nor a token. -/
theorem Effect.sent {call : Call} {packId : Text} {st'' : State} (h : st.Shrinks st') :
    Effect c st s link now call (st''.sendPack s packId) st' := by
  obtain ⟨bytes, hpack⟩ | herror := sendPack_cases st'' s packId
  · rw [hpack]
    exact .other (nofun) (nofun) h
  · rw [herror]
    exact Effect.refused h

theorem effect_writePack (packId token : Text) :
    Effect c st s link now (.writePack packId token) (st.writePack c s link packId token now).1
      (st.writePack c s link packId token now).2 := by
  simp only [writePack]
  split
  · exact Effect.refused (Shrinks.refl st)
  split
  · exact Effect.refused (Shrinks.refl st)
  rename_i packScope _
  split
  · exact Effect.refused (Shrinks.refl st)
  · split
    · split
      · exact Effect.refused (Shrinks.refl st)
      · exact Effect.refused (Shrinks.refl st)
    · exact Effect.sent (Shrinks.refl st)
  · have hshrinks : st.Shrinks (st.packAllowed c s link packScope now).2 := shrinks_packAllowed packScope
    split
    · exact Effect.sent hshrinks
    · exact Effect.refused hshrinks

theorem effect_writeRecords (kind token : Text) :
    Effect c st s link now (.writeRecords kind token) (st.writeRecords c s link kind token now) st := by
  simp only [writeRecords]
  split
  · exact Effect.refused (Shrinks.refl st)
  · split
    · exact Effect.refused (Shrinks.refl st)
    · split
      · exact Effect.refused (Shrinks.refl st)
      · exact .other (nofun) (nofun) (Shrinks.refl st)

/-- What one call can do. -/
theorem effect_serve (call : Call) :
    Effect c st s link now call (st.serve c s link call now).1 (st.serve c s link call now).2 := by
  cases call with
  | newPrivateChallenge random =>
    simp only [serve]
    split
    · exact Effect.refused (Shrinks.refl st)
    · exact effect_newPrivateChallenge random
  | openPrivateSession scope challengeHex sigHex random =>
    simp only [serve]
    split
    · exact Effect.refused (Shrinks.refl st)
    · exact effect_openPrivateSession scope challengeHex sigHex random
  | writeRecords kind token => exact effect_writeRecords kind token
  | writePack packId token => exact effect_writePack packId token

/-! ### What a call that sends something has seen -/

variable {o : Outside} {scope token : Text} {rec : ScopeRecord}

theorem pattern_of_loadScopeRecord (h : loadScopeRecord c o s scope = .ok (some rec)) :
    storageScopePattern scope = true := by
  rw [loadScopeRecord] at h
  split at h
  · simp at h
  · rename_i hpattern
    exact Bool.eq_true_of_not_eq_false hpattern

theorem dot_not_mem_of_pattern (h : storageScopePattern scope = true) : '.' ∉ scope := by
  intro hdot
  simp only [storageScopePattern, Bool.and_eq_true, List.all_eq_true] at h
  have hchar := h.2 _ hdot
  exact absurd hchar (by decide)

theorem loadScopeRecord_iff (hpattern : storageScopePattern scope = true) :
    loadScopeRecord c o s scope = .ok (some rec) ↔ HasScopeRecord c o s.account s.luna scope rec := by
  constructor
  · intro h
    rw [loadScopeRecord, if_neg (by simp [hpattern])] at h
    split at h
    · simp at h
    rename_i signingHex hsigning
    split at h
    · simp at h
    · simp at h
    · rename_i data hdata
      split at h
      · simp at h
      split at h
      · simp at h
      rename_i rec' hparse
      split at h
      · simp at h
      · rename_i hsame
        simp only [ok.injEq, some.injEq] at h
        subst h
        rw [not_or, not_not, not_not] at hsame
        exact ⟨hsame.1, hsame.2, signingHex, data, hsigning, hdata, hparse⟩
  · rintro ⟨hluna, hscope, signingHex, data, hsigning, hdata, hparse⟩
    have hsmall := (o.record_valid _ _ _ _ _ hdata).2
    rw [loadScopeRecord, if_neg (by simp [hpattern]), hsigning]
    simp only [hdata]
    rw [if_neg (by omega), hparse]
    simp [hluna, hscope]

/-- A token opens only a scope that its session row names. -/
theorem session_of_scope (h : st.privateSessionScope c s link token now = scope) (hne : scope ≠ []) :
    ∃ row, st.sessions.get? (hashToken c (c.lower token)) = some row ∧ row.account = s.account ∧
      row.luna = s.luna ∧ row.link = link ∧ unix now < row.expiresAt ∧ row.scope = scope := by
  rw [privateSessionScope] at h
  split at h
  · exact absurd h.symm hne
  · rename_i row hrow
    split at h
    · rename_i hmatch
      exact ⟨row, hrow, hmatch.1, hmatch.2.1, hmatch.2.2.1, hmatch.2.2.2, h⟩
    · exact absurd h.symm hne

theorem scope_of_writePack {packId : Text} {bytes : Bytes}
    (h : (st.writePack c s link packId token now).1 = .pack bytes)
    (htag : st.outside.packScope s.account s.luna packId = some scope)
    (hrec : loadScopeRecord c st.outside s scope = .ok (some rec)) :
    st.privateSessionScope c s link token now = scope := by
  simp only [writePack, htag, hrec] at h
  split at h
  · cases h
  split at h
  · split at h
    · cases h
    · cases h
  · rename_i hscope
    exact not_not.mp hscope

theorem mem_of_mem_filterRecords {kind : Text} {recs : List StoredRecord} {keyNames : List Text} {r : StoredRecord}
    (h : r ∈ filterRecords c s kind recs keyNames) : r ∈ recs := by
  rw [filterRecords] at h
  split at h
  · exact h
  · exact mem_of_mem_filter h

theorem scope_of_writeRecords {recs : List StoredRecord} {r : StoredRecord}
    (h : st.writeRecords c s link "psnapshots".toList token now = .records recs) (hr : r ∈ recs) :
    st.privateSessionScope c s link token now ≠ [] ∧
      ∃ rest, r.name = st.privateSessionScope c s link token now ++ '.' :: rest := by
  simp only [writeRecords] at h
  split at h
  · cases h
  split at h
  · cases h
  rename_i hscope
  split at h
  · cases h
  rename_i found _
  have hkinds : ¬ "psnapshots".toList = "pscopes".toList := by decide
  rw [if_pos trivial, Answer.records.injEq] at h
  subst h
  have hkept := mem_of_mem_filterRecords hr
  rw [keepWithPrefix, mem_filter, isPrefixOf_iff_prefix] at hkept
  obtain ⟨rest, hname⟩ := hkept.2
  refine ⟨fun hempty => hscope ⟨trivial, hempty⟩, rest, ?_⟩
  rw [← hname, append_assoc]
  rfl

/-- A text has one first part before a dot. -/
theorem before_dot_inj {a b x y : Text} (ha : '.' ∉ a) (hb : '.' ∉ b) (h : a ++ '.' :: x = b ++ '.' :: y) : a = b := by
  have hsplit := congrArg (takeWhile (· ≠ '.')) h
  have hdotless : ∀ {t z : Text}, '.' ∉ t → (t ++ '.' :: z).takeWhile (· ≠ '.') = t := by
    intro t z ht
    rw [takeWhile_append_of_pos]
    · simp
    · intro ch hch
      exact decide_eq_true fun heq : ch = '.' => ht (heq ▸ hch)
  rwa [hdotless ha, hdotless hb] at hsplit

end State

/-! ### The calls behind the rows -/

/-- The call issued or used a challenge with this hash. -/
def Entry.Touches (e : Entry) (h : Text) : Prop :=
  (∃ x, e.issued = some x ∧ hashToken c x = h) ∨
    ∃ op, e.opened = some op ∧ hashToken c (c.lower op.challengeHex) = h

/-- The call at `m` opened a session with the challenge issued at `k`, as far as the tables can tell: no call in
between issued one with this hash. -/
def UsesHash (log : List Entry) (k m : Nat) : Prop :=
  k < m ∧ ∃ i o x op, log[k]? = some i ∧ log[m]? = some o ∧ i.issued = some x ∧ o.opened = some op ∧
    hashToken c x = hashToken c (c.lower op.challengeHex) ∧
    ∀ j e y, k < j → j < m → log[j]? = some e → e.issued = some y → hashToken c y ≠ hashToken c x

/-- A challenge row comes from the last call that issued or used a challenge with its hash. -/
def ChallengeFrom (log : List Entry) (h : Text) (row : Challenge) : Prop :=
  ∃ (k : Nat) (i : Entry) (x : Text), log[k]? = some i ∧ i.issued = some x ∧ hashToken c x = h ∧
    (i.scope.account = row.account ∧ i.scope.luna = row.luna ∧ i.link = row.link) ∧
    row.expiresAt = unix i.now + privateChallengeTTL ∧
    ∀ (j : Nat) (e : Entry), k < j → log[j]? = some e → ¬ e.Touches c h

/-- A session row comes from a call that opened it. -/
def SessionFrom (log : List Entry) (h : Text) (row : Session) : Prop :=
  ∃ (m : Nat) (o : Entry) (op : Opening), log[m]? = some o ∧ o.opened = some op ∧ hashToken c op.token = h ∧
    op.scope = row.scope ∧
    (o.scope.account = row.account ∧ o.scope.luna = row.luna ∧ o.link = row.link) ∧
    row.expiresAt = unix o.now + privateSessionTTL

/-- The call at `m` made its checks, and used a challenge its caller had been given in time. -/
def Proper (log : List Entry) (m : Nat) (o : Entry) (op : Opening) : Prop :=
  (∃ rec, State.Checked c o.outside o.scope o.link op rec) ∧
    ∃ (k : Nat) (i : Entry), log[k]? = some i ∧ i.SameCaller o ∧ unix o.now < unix i.now + privateChallengeTTL ∧ UsesHash c log k m

/-- Before the call at `n`, its caller opened the scope, and the token is that of the session, to the hash. -/
def Covered (log : List Entry) (n : Nat) (r : Entry) (scope token : Text) : Prop :=
  ∃ (m : Nat) (o : Entry) (op : Opening), m < n ∧ log[m]? = some o ∧ o.opened = some op ∧ op.scope = scope ∧
    hashToken c op.token = hashToken c (c.lower token) ∧ o.SameCaller r ∧
    unix r.now < unix o.now + privateSessionTTL

structure Traced (st : State) : Prop where
  challenge : ∀ h row, st.challenges.get? h = some row → ChallengeFrom c st.log h row
  session : ∀ h row, st.sessions.get? h = some row → SessionFrom c st.log h row
  proper : ∀ m o op, st.log[m]? = some o → o.opened = some op → Proper c st.log m o op
  once : ∀ k m m', UsesHash c st.log k m → UsesHash c st.log k m' → m = m'
  covered : ∀ n r scope token, st.log[n]? = some r → r.Sends c scope token → Covered c st.log n r scope token

theorem traced_start (o : Outside) : Traced c (State.start o) where
  challenge _ _ h := by cases h
  session _ _ h := by cases h
  proper m _ _ h := by simp [State.start] at h
  once := by
    rintro k m m' ⟨_, i, _, _, _, hi, _⟩
    simp [State.start] at hi
  covered n _ _ _ h := by simp [State.start] at h

variable {c} {log : List Entry} {e : Entry} {k m n : Nat} {h : Text}

theorem getElem?_snoc {e' : Entry} (hget : (log ++ [e])[n]? = some e') :
    log[n]? = some e' ∨ n = log.length ∧ e' = e := by
  obtain hlt | hge := Nat.lt_or_ge n log.length
  · rw [getElem?_append_left hlt] at hget
    exact .inl hget
  · rw [getElem?_append_right hge, getElem?_singleton] at hget
    split at hget
    · exact .inr ⟨by omega, (some.inj hget).symm⟩
    · cases hget

theorem getElem?_snoc_of_some {e' : Entry} (hget : log[n]? = some e') : (log ++ [e])[n]? = some e' := by
  rw [getElem?_append_left (List.getElem?_eq_some_iff.mp hget).1, hget]

theorem usesHash_snoc (hm : m < log.length) : UsesHash c (log ++ [e]) k m ↔ UsesHash c log k m := by
  have hsame : ∀ j, j ≤ m → (log ++ [e])[j]? = log[j]? := fun j hj => getElem?_append_left (by omega)
  constructor
  · rintro ⟨hkm, i, o, x, op, hi, ho, hx, hop, heq, hbetween⟩
    rw [hsame k (by omega)] at hi
    rw [hsame m (by omega)] at ho
    refine ⟨hkm, i, o, x, op, hi, ho, hx, hop, heq, ?_⟩
    intro j e' y hkj hjm hj
    exact hbetween j e' y hkj hjm (by rw [hsame j (by omega), hj])
  · rintro ⟨hkm, i, o, x, op, hi, ho, hx, hop, heq, hbetween⟩
    rw [← hsame k (by omega)] at hi
    rw [← hsame m (by omega)] at ho
    refine ⟨hkm, i, o, x, op, hi, ho, hx, hop, heq, ?_⟩
    intro j e' y hkj hjm hj
    exact hbetween j e' y hkj hjm (by rw [← hsame j (by omega), hj])

theorem ChallengeFrom.snoc (hfrom : ChallengeFrom c log h row) (hquiet : ¬ e.Touches c h) :
    ChallengeFrom c (log ++ [e]) h row := by
  obtain ⟨k, i, x, hi, hx, hhash, hcaller, hexp, hsince⟩ := hfrom
  refine ⟨k, i, x, getElem?_snoc_of_some hi, hx, hhash, hcaller, hexp, ?_⟩
  intro j e' hkj hj
  obtain hold | ⟨_, rfl⟩ := getElem?_snoc hj
  · exact hsince j e' hkj hold
  · exact hquiet

theorem SessionFrom.snoc {row : Session} (hfrom : SessionFrom c log h row) : SessionFrom c (log ++ [e]) h row := by
  obtain ⟨m, o, op, ho, hrest⟩ := hfrom
  exact ⟨m, o, op, getElem?_snoc_of_some ho, hrest⟩

theorem Proper.snoc {o : Entry} {op : Opening} (hproper : Proper c log m o op) (hm : m < log.length) :
    Proper c (log ++ [e]) m o op := by
  obtain ⟨hchecked, k, i, hi, hcaller, htime, huses⟩ := hproper
  exact ⟨hchecked, k, i, getElem?_snoc_of_some hi, hcaller, htime, (usesHash_snoc hm).mpr huses⟩

theorem Covered.snoc {r : Entry} {scope token : Text} (hcovered : Covered c log n r scope token) :
    Covered c (log ++ [e]) n r scope token := by
  obtain ⟨m, o, op, hm, ho, hrest⟩ := hcovered
  exact ⟨m, o, op, hm, getElem?_snoc_of_some ho, hrest⟩

/-- The challenge a row stands for was not used yet. -/
theorem not_usesHash_of_challengeFrom (hfrom : ChallengeFrom c log h row) {op : Opening}
    (hop : e.opened = some op) (hhash : hashToken c (c.lower op.challengeHex) = h)
    (huses : UsesHash c (log ++ [e]) k log.length) : ¬ UsesHash c log k m := by
  obtain ⟨k₁, i₁, x₁, hi₁, hx₁, hhash₁, _, _, hsince⟩ := hfrom
  obtain ⟨hk, i, o, x, op', hi, ho, hx, hop', heq, hbetween⟩ := huses
  rw [getElem?_append_left hk] at hi
  have ho' : o = e := by simpa using ho.symm
  subst ho'
  rw [hop] at hop'
  obtain rfl := Option.some.inj hop'
  -- both calls are the last to issue this hash
  have hle : k₁ ≤ k := by
    by_contra hlt
    have hk₁ := (List.getElem?_eq_some_iff.mp hi₁).1
    refine hbetween k₁ i₁ x₁ (by omega) hk₁ (getElem?_snoc_of_some hi₁) hx₁ ?_
    rw [hhash₁, ← hhash, heq]
  have hge : k ≤ k₁ := by
    by_contra hlt
    exact hsince k i (by omega) hi (Or.inl ⟨x, hx, heq.trans hhash⟩)
  rintro ⟨hkm, i', o', x', op'', hi', ho', hx', hop'', heq', _⟩
  rw [hi] at hi'
  obtain rfl := Option.some.inj hi'
  rw [hx] at hx'
  obtain rfl := Option.some.inj hx'
  refine hsince m o' (by omega) ho' (Or.inr ⟨op'', hop'', ?_⟩)
  rw [← heq', heq, hhash]

theorem UsesHash.lt_length (huses : UsesHash c log k m) : m < log.length := by
  obtain ⟨_, _, _, _, _, _, ho, _⟩ := huses
  exact (List.getElem?_eq_some_iff.mp ho).1

theorem UsesHash.opened_last (huses : UsesHash c (log ++ [e]) k log.length) :
    ∃ op, e.opened = some op := by
  obtain ⟨_, _, o, _, op, _, ho, _, hop, _⟩ := huses
  have ho' : o = e := by simpa using ho.symm
  exact ⟨op, ho' ▸ hop⟩

theorem once_snoc (honce : ∀ k m m', UsesHash c log k m → UsesHash c log k m' → m = m')
    (hnew : ∀ op, e.opened = some op → ∃ row, ChallengeFrom c log (hashToken c (c.lower op.challengeHex)) row) :
    ∀ k m m', UsesHash c (log ++ [e]) k m → UsesHash c (log ++ [e]) k m' → m = m' := by
  have hlast : ∀ k m, UsesHash c (log ++ [e]) k m → m < log.length ∨ m = log.length := by
    intro k m huses
    have hlt := huses.lt_length
    rw [length_append, length_singleton] at hlt
    omega
  have hfresh : ∀ k m, UsesHash c (log ++ [e]) k log.length → m < log.length →
      ¬ UsesHash c (log ++ [e]) k m := by
    intro k m huses hm
    obtain ⟨op, hop⟩ := huses.opened_last
    obtain ⟨row, hfrom⟩ := hnew op hop
    rw [usesHash_snoc hm]
    exact not_usesHash_of_challengeFrom hfrom hop rfl huses
  intro k m m' huses huses'
  obtain hm | rfl := hlast k m huses
  · obtain hm' | rfl := hlast k m' huses'
    · exact honce k m m' ((usesHash_snoc hm).mp huses) ((usesHash_snoc hm').mp huses')
    · exact absurd huses (hfresh k m huses' hm)
  · obtain hm' | rfl := hlast k m' huses'
    · exact absurd huses' (hfresh k m' huses hm')
    · rfl

/-- A call that spends the challenge of a row uses the challenge the row stands for. -/
theorem ChallengeFrom.usesHash {op : Opening} (hop : e.opened = some op)
    (hfrom : ChallengeFrom c log (hashToken c (c.lower op.challengeHex)) row) :
    ∃ (k : Nat) (i : Entry), (log ++ [e])[k]? = some i ∧
      (i.scope.account = row.account ∧ i.scope.luna = row.luna ∧ i.link = row.link) ∧
      row.expiresAt = unix i.now + privateChallengeTTL ∧ UsesHash c (log ++ [e]) k log.length := by
  obtain ⟨k, i, x, hi, hx, hhash, hcaller, hexp, hsince⟩ := hfrom
  have hk := (List.getElem?_eq_some_iff.mp hi).1
  have hlast : (log ++ [e])[log.length]? = some e := by simp
  refine ⟨k, i, getElem?_snoc_of_some hi, hcaller, hexp, hk, i, e, x, op, getElem?_snoc_of_some hi, hlast, hx, hop,
    hhash, ?_⟩
  intro j e' y hkj hj hget hy heq
  rw [getElem?_append_left hj] at hget
  exact hsince j e' hkj hget (Or.inl ⟨y, hy, heq.trans hhash⟩)

namespace State

variable {st st' : State} {s : ReadScope} {link : Option Nat} {now : Int} {call : Call} {answer : Answer}

theorem hasChallenge_iff {challengeHex : Text} : st.hasChallenge c s link challengeHex now = true ↔
      ∃ row, st.challenges.get? (hashToken c challengeHex) = some row ∧ row.account = s.account ∧
        row.luna = s.luna ∧ row.link = link ∧ unix now < row.expiresAt := by
  rw [hasChallenge]
  split
  · rename_i hnone
    simp [hnone]
  · rename_i row hrow
    simp only [hrow, some.injEq, Bool.and_eq_true, decide_eq_true_eq, exists_eq_left', and_assoc]

theorem challengeFrom_last {e : Entry} {x : Text} (hx : e.issued = some x)
    (hcaller : e.scope.account = row.account ∧ e.scope.luna = row.luna ∧ e.link = row.link)
    (hexp : row.expiresAt = unix e.now + privateChallengeTTL) :
    ChallengeFrom c (log ++ [e]) (hashToken c x) row := by
  refine ⟨log.length, e, x, getElem?_concat_length, hx, rfl, hcaller, hexp, ?_⟩
  intro j e' hj hget
  have hlen := (List.getElem?_eq_some_iff.mp hget).1
  rw [length_append, length_singleton] at hlen
  omega

section

variable {e : Entry} (ht : Traced c st)
  (hcovered : ∀ scope token, e.Sends c scope token → Covered c st.log st.log.length e scope token)
include ht hcovered

/-- What has to be seen of the calls and rows that are new. -/
theorem traced_snoc (hlog : st'.log = st.log ++ [e]) (hchallenge : ∀ h row, st'.challenges.get? h = some row →
      (st.challenges.get? h = some row ∧ ¬ e.Touches c h) ∨ ChallengeFrom c (st.log ++ [e]) h row)
    (hsession : ∀ h row, st'.sessions.get? h = some row →
      st.sessions.get? h = some row ∨ SessionFrom c (st.log ++ [e]) h row)
    (hopened : ∀ op, e.opened = some op → Proper c (st.log ++ [e]) st.log.length e op ∧
      ∃ row, ChallengeFrom c st.log (hashToken c (c.lower op.challengeHex)) row) :
    Traced c st' := by
  constructor
  · intro h row hrow
    rw [hlog]
    obtain ⟨hold, hquiet⟩ | hnew := hchallenge h row hrow
    · exact (ht.challenge h row hold).snoc hquiet
    · exact hnew
  · intro h row hrow
    rw [hlog]
    obtain hold | hnew := hsession h row hrow
    · exact (ht.session h row hold).snoc
    · exact hnew
  · intro m o op ho hop
    rw [hlog] at ho ⊢
    obtain hold | ⟨rfl, rfl⟩ := getElem?_snoc ho
    · exact (ht.proper m o op hold hop).snoc (List.getElem?_eq_some_iff.mp hold).1
    · exact (hopened op hop).1
  · rw [hlog]
    exact once_snoc ht.once fun op hop => (hopened op hop).2
  · intro n r scope token hr hsends
    rw [hlog] at hr ⊢
    obtain hold | ⟨rfl, rfl⟩ := getElem?_snoc hr
    · exact (ht.covered n r scope token hold hsends).snoc
    · exact (hcovered scope token hsends).snoc

theorem traced_issued {x : Text} {st₁ : State} (hshrinks : st.Shrinks st₁) (hx : e.issued = some x) (hopened : e.opened = none)
    (hcaller : e.scope.account = row.account ∧ e.scope.luna = row.luna ∧ e.link = row.link)
    (hexp : row.expiresAt = unix e.now + privateChallengeTTL) :
    Traced c { st₁ with challenges := st₁.challenges.put (hashToken c x) row, log := st.log ++ [e] } := by
  refine traced_snoc ht hcovered rfl ?_ (fun h row hrow => .inl (hshrinks.sessions h row hrow)) ?_
  · intro h row' hrow
    rcases get?_put_some.mp hrow with ⟨heq, rfl⟩ | ⟨hne, hrow⟩
    · rw [heq]
      exact .inr (challengeFrom_last hx hcaller hexp)
    refine .inl ⟨hshrinks.challenges h row' hrow, ?_⟩
    rintro (⟨y, hy, hhash⟩ | ⟨op, hop, _⟩)
    · rw [hx] at hy
      obtain rfl := some.inj hy
      exact hne hhash.symm
    · rw [hopened] at hop
      cases hop
  · intro op hop
    rw [hopened] at hop
    cases hop

theorem traced_opened (op : Opening) (row : Session) {rec : ScopeRecord} (hissued : e.issued = none) (hop : e.opened = some op)
    (hhas : st.hasChallenge c e.scope e.link (c.lower op.challengeHex) e.now = true)
    (hchecked : Checked c e.outside e.scope e.link op rec) (hscope : op.scope = row.scope)
    (hcaller : e.scope.account = row.account ∧ e.scope.luna = row.luna ∧ e.link = row.link)
    (hexp : row.expiresAt = unix e.now + privateSessionTTL) :
    Traced c { st with
      challenges := st.challenges.erase (hashToken c (c.lower op.challengeHex))
      sessions := st.sessions.put (hashToken c op.token) row
      log := st.log ++ [e] } := by
  obtain ⟨spent, hspent, hacc, hluna, hlink, htime⟩ := hasChallenge_iff.mp hhas
  have hfrom := ht.challenge _ spent hspent
  refine traced_snoc ht hcovered rfl ?_ ?_ ?_
  · intro h row' hrow
    obtain ⟨hne, hrow⟩ := get?_erase_some.mp hrow
    refine .inl ⟨hrow, ?_⟩
    rintro (⟨y, hy, _⟩ | ⟨op', hop', hhash⟩)
    · rw [hissued] at hy
      cases hy
    · rw [hop] at hop'
      obtain rfl := some.inj hop'
      exact hne hhash.symm
  · intro h row' hrow
    rcases get?_put_some.mp hrow with ⟨heq, rfl⟩ | ⟨-, hrow⟩
    · exact .inr ⟨st.log.length, e, op, getElem?_concat_length, hop, heq.symm, hscope, hcaller, hexp⟩
    · exact .inl hrow
  · intro op' hop'
    rw [hop] at hop'
    obtain rfl := some.inj hop'
    obtain ⟨k, i, hi, hwho, hexpires, huses⟩ := ChallengeFrom.usesHash hop hfrom
    have hsame : i.SameCaller e := ⟨hwho.1.trans hacc, hwho.2.1.trans hluna, hwho.2.2.trans hlink⟩
    exact ⟨⟨⟨rec, hchecked⟩, k, i, hi, hsame, hexpires ▸ htime, huses⟩, spent, hfrom⟩

theorem traced_other (hshrinks : st.Shrinks st') (hissued : e.issued = none) (hopened : e.opened = none) :
    Traced c { st' with log := st.log ++ [e] } := by
  refine traced_snoc ht hcovered rfl ?_ (fun h row hrow => .inl (hshrinks.sessions h row hrow)) ?_
  · intro h row hrow
    refine .inl ⟨hshrinks.challenges h row hrow, ?_⟩
    rintro (⟨x, hx, _⟩ | ⟨op, hop, _⟩)
    · rw [hissued] at hx
      cases hx
    · rw [hopened] at hop
      cases hop
  · intro op hop
    rw [hopened] at hop
    cases hop

end

/-- One call keeps the rows traced. -/
theorem Effect.traced (heff : Effect c st s link now call answer st') (ht : Traced c st)
    (hcovered : ∀ scope token, Entry.Sends c ⟨now, s, link, st.outside, call, answer⟩ scope token →
      Covered c st.log st.log.length ⟨now, s, link, st.outside, call, answer⟩ scope token) :
    Traced c { st' with log := st.log ++ [⟨now, s, link, st.outside, call, answer⟩] } := by
  cases heff with
  | issued hshrinks => exact traced_issued ht hcovered hshrinks rfl rfl ⟨rfl, rfl, rfl⟩ rfl
  | @opened scope challengeHex sigHex random rec hhas hchecked =>
    exact traced_opened ht hcovered ⟨scope, challengeHex, sigHex, bytesToHex random.val⟩
      ⟨s.account, s.luna, scope, link, unix now + privateSessionTTL⟩ rfl rfl hhas hchecked rfl ⟨rfl, rfl, rfl⟩ rfl
  | other hissues hopens hshrinks =>
    refine traced_other ht hcovered hshrinks ?_ ?_
    · simp only [Entry.issued]
      split
      · exact absurd rfl (hissues _ _)
      · rfl
    · simp only [Entry.opened]
      split
      · exact absurd rfl (hopens _ _)
      · rfl

/-- A scope that a token opens was opened by a call, and so has no dot. -/
theorem covered_of_scope {scope token : Text} (r : Entry) (ht : Traced c st)
    (hscope : st.privateSessionScope c r.scope r.link token r.now = scope) (hne : scope ≠ []) :
    Covered c st.log st.log.length r scope token ∧ '.' ∉ scope := by
  obtain ⟨row, hrow, hacc, hluna, hlink, htime, hname⟩ := session_of_scope hscope hne
  obtain ⟨m, o, op, ho, hop, hhash, hsame, hcaller, hexp⟩ := ht.session _ row hrow
  obtain ⟨⟨rec, hchecked⟩, _⟩ := ht.proper m o op ho hop
  have hm := (List.getElem?_eq_some_iff.mp ho).1
  have hopscope : op.scope = scope := hsame.trans hname
  have hwho : o.SameCaller r := ⟨hcaller.1.trans hacc, hcaller.2.1.trans hluna, hcaller.2.2.trans hlink⟩
  refine ⟨⟨m, o, op, hm, ho, hop, hopscope, hhash, hwho, hexp ▸ htime⟩, ?_⟩
  rw [← hopscope]
  exact dot_not_mem_of_pattern (pattern_of_loadScopeRecord hchecked.record)

theorem covered_serve {scope token : Text} (ht : Traced c st)
    (hsends : Entry.Sends c ⟨now, s, link, st.outside, call, (st.serve c s link call now).1⟩ scope token) :
    Covered c st.log st.log.length ⟨now, s, link, st.outside, call, (st.serve c s link call now).1⟩ scope token := by
  cases hsends with
  | @pack packId token bytes scope rec hcall hanswer htag hrecord =>
    subst hcall
    have hne : scope ≠ [] := by
      obtain ⟨_, _, _, _, _, hdata, _⟩ := hrecord
      exact (st.outside.record_valid _ _ _ _ _ hdata).1
    have hpattern := (st.outside.packScope_valid _ _ _ _ htag).resolve_left hne
    have hload := (loadScopeRecord_iff hpattern).mpr hrecord
    have hscope : st.privateSessionScope c s link token now = scope := scope_of_writePack hanswer htag hload
    exact (covered_of_scope _ ht hscope hne).1
  | @record token recs rec scope rest hcall hanswer hsent hname hdotless =>
    subst hcall
    obtain ⟨hne, rest', hname'⟩ := scope_of_writeRecords hanswer hsent
    have hcovered := covered_of_scope ⟨now, s, link, st.outside, .writeRecords "psnapshots".toList token,
      st.writeRecords c s link "psnapshots".toList token now⟩ ht rfl hne
    have hscope : scope = st.privateSessionScope c s link token now :=
      before_dot_inj hdotless hcovered.2 (hname ▸ hname')
    rw [hscope]
    exact hcovered.1

/-! ### Links -/

/-- A link keeps its id, and an id keeps what it shares. -/
structure LinksKept (st : State) : Prop where
  bound : ∀ id row, st.links.get? id = some row → id < st.nextLink
  entry : ∀ e ∈ st.log, ∀ id, e.link = some id →
    id < st.nextLink ∧ ∀ row, st.links.get? id = some row → row.scope = e.scope
  agree : ∀ e ∈ st.log, ∀ e' ∈ st.log, ∀ id, e.link = some id → e'.link = some id → e.scope = e'.scope

theorem linksKept_start (o : Outside) : LinksKept (start o) where
  bound _ _ h := by cases h
  entry _ h := by simp [start] at h
  agree _ h := by simp [start] at h

/-- The rows of links may lose some, and change in all but what they share. -/
theorem LinksKept.of_links (hkept : LinksKept st) (hlog : st'.log = st.log) (hnext : st'.nextLink = st.nextLink)
    (hlinks : ∀ id row', st'.links.get? id = some row' →
      ∃ row, st.links.get? id = some row ∧ row'.scope = row.scope) : LinksKept st' where
  bound id row' hrow' := by
    obtain ⟨row, hrow, _⟩ := hlinks id row' hrow'
    rw [hnext]
    exact hkept.bound id row hrow
  entry e he id hid := by
    rw [hlog] at he
    rw [hnext]
    refine ⟨(hkept.entry e he id hid).1, ?_⟩
    intro row' hrow'
    obtain ⟨row, hrow, hscope⟩ := hlinks id row' hrow'
    rw [hscope]
    exact (hkept.entry e he id hid).2 row hrow
  agree := by
    rw [hlog]
    exact hkept.agree

theorem link_of_resolve {caller : Caller} {id : Nat} (h : st.resolve c caller now = some (s, some id)) :
    ∃ row, st.links.get? id = some row ∧ row.scope = s := by
  cases caller with
  | account account luna =>
    simp only [resolve] at h
    split at h
    · simp at h
    · cases h
  | share token =>
    simp only [resolve, resolveShare, map_eq_some_iff, Prod.exists] at h
    obtain ⟨s', id', hshare, heq⟩ := h
    split at hshare
    · cases hshare
    simp only [map_eq_some_iff, Prod.mk.injEq, some.injEq, Prod.exists] at hshare heq
    obtain ⟨k, row, hhead, hscope, hk⟩ := hshare
    have hrow := mem_select.mp (mem_of_mem_head? hhead)
    refine ⟨row, ?_, hscope.trans heq.1⟩
    rw [← heq.2, ← hk]
    exact hrow.1

theorem Effect.links (heff : Effect c st s link now call answer st') :
    st'.links = st.links ∧ st'.nextLink = st.nextLink := by
  cases heff with
  | issued hshrinks => exact ⟨hshrinks.links, hshrinks.nextLink⟩
  | opened => exact ⟨rfl, rfl⟩
  | other _ _ hshrinks => exact ⟨hshrinks.links, hshrinks.nextLink⟩

theorem LinksKept.snoc {e : Entry} (hkept : LinksKept st) (hlog : st'.log = st.log ++ [e])
    (hlinks : st'.links = st.links) (hnext : st'.nextLink = st.nextLink)
    (hnew : ∀ id, e.link = some id → ∃ row, st.links.get? id = some row ∧ row.scope = e.scope) : LinksKept st' := by
  have hold : ∀ e' ∈ st.log, ∀ id, e'.link = some id → e.link = some id → e'.scope = e.scope := by
    intro e' he' id hid hid'
    obtain ⟨row, hrow, hscope⟩ := hnew id hid'
    rw [← hscope]
    exact ((hkept.entry e' he' id hid).2 row hrow).symm
  constructor
  · rw [hlinks, hnext]
    exact hkept.bound
  · rw [hlog, hlinks, hnext]
    intro e' he' id hid
    obtain he' | he' := mem_append.mp he'
    · exact hkept.entry e' he' id hid
    · obtain rfl := mem_singleton.mp he'
      obtain ⟨row, hrow, hscope⟩ := hnew id hid
      refine ⟨hkept.bound id row hrow, ?_⟩
      intro row' hrow'
      rw [hrow] at hrow'
      obtain rfl := some.inj hrow'
      exact hscope
  · rw [hlog]
    intro e₁ h₁ e₂ h₂ id hid₁ hid₂
    rw [mem_append, mem_singleton] at h₁ h₂
    obtain hold₁ | rfl := h₁
    · obtain hold₂ | rfl := h₂
      · exact hkept.agree e₁ hold₁ e₂ hold₂ id hid₁ hid₂
      · exact hold e₁ hold₁ id hid₁ hid₂
    · obtain hold₂ | rfl := h₂
      · exact (hold e₂ hold₂ id hid₂ hid₁).symm
      · rfl

theorem LinksKept.created (hkept : LinksKept st) (row : ShareLink) :
    LinksKept { st with links := st.links.put st.nextLink row, nextLink := st.nextLink + 1 } where
  bound id row' hrow' := by
    rw [get?_put] at hrow'
    split at hrow'
    · rename_i heq
      exact heq ▸ Nat.lt_succ_self _
    · exact Nat.lt_succ_of_lt (hkept.bound id row' hrow')
  entry e he id hid := by
    obtain ⟨hlt, hscope⟩ := hkept.entry e he id hid
    refine ⟨Nat.lt_succ_of_lt hlt, ?_⟩
    intro row' hrow'
    rw [get?_put_of_ne _ _ (Nat.ne_of_lt hlt)] at hrow'
    exact hscope row' hrow'
  agree := hkept.agree

/-! ### Every run -/

theorem createLink_keeps {P : State → Prop} (hsame : P st)
    (hrow : ∀ row, P { st with links := st.links.put st.nextLink row, nextLink := st.nextLink + 1 }) (now : Int)
    (account luna : Text) (kind : Kind) (value token : Text) : P (st.createLink c account luna kind value token now) := by
  simp only [createLink]
  split
  · exact hsame
  split
  · exact hsame
  · split
    · exact hsame
    · split
      · exact hsame
      · exact hrow _

theorem traced_of_tables (ht : Traced c st) (hchallenges : st'.challenges = st.challenges)
    (hsessions : st'.sessions = st.sessions) (hlog : st'.log = st.log) : Traced c st' := by
  obtain ⟨hchallenge, hsession, hproper, honce, hcovered⟩ := ht
  constructor
  · rw [hchallenges, hlog]
    exact hchallenge
  · rw [hsessions, hlog]
    exact hsession
  · rw [hlog]
    exact hproper
  · rw [hlog]
    exact honce
  · rw [hlog]
    exact hcovered

theorem traced_step (ht : Traced c st) (e : Event) : Traced c (st.step c e) := by
  obtain ⟨now, act⟩ := e
  cases act with
  | request caller call =>
    simp only [step]
    split
    · exact ht
    · exact (effect_serve call).traced ht fun _ _ => covered_serve ht
  | createLink account luna kind value token =>
    exact createLink_keeps (P := Traced c) ht (fun _ => traced_of_tables ht rfl rfl rfl) ..
  | revokeLink account id | purgeLinks account luna | other outside => exact traced_of_tables ht rfl rfl rfl

theorem linksKept_step (hkept : LinksKept st) (e : Event) : LinksKept (st.step c e) := by
  obtain ⟨now, act⟩ := e
  cases act with
  | request caller call =>
    simp only [step]
    split
    · exact hkept
    rename_i s link hresolve
    have heff : Effect c st s link now call (st.serve c s link call now).1 (st.serve c s link call now).2 :=
      effect_serve call
    refine hkept.snoc rfl heff.links.1 heff.links.2 ?_
    intro id hid
    subst hid
    exact link_of_resolve hresolve
  | createLink account luna kind value token =>
    exact createLink_keeps (P := LinksKept) hkept (fun row => hkept.created row) ..
  | revokeLink account id =>
    refine hkept.of_links rfl rfl ?_
    intro id' row' hrow'
    simp only [step, get?_update, map_eq_some_iff] at hrow'
    obtain ⟨row, hrow, rfl⟩ := hrow'
    refine ⟨row, hrow, ?_⟩
    split
    · rfl
    · rfl
  | purgeLinks account luna =>
    refine hkept.of_links rfl rfl ?_
    intro id row hrow
    simp only [step, Table.get?_keep, filter_eq_some_iff] at hrow
    exact ⟨row, hrow.1, rfl⟩
  | other outside => exact hkept.of_links rfl rfl fun _ row hrow => ⟨row, hrow, rfl⟩

theorem traced_run (ht : Traced c st) (events : List Event) : Traced c (st.run c events) := by
  induction events generalizing st with
  | nil => exact ht
  | cons e events ih => exact ih (traced_step ht e)

theorem linksKept_run (hkept : LinksKept st) (events : List Event) : LinksKept (st.run c events) := by
  induction events generalizing st with
  | nil => exact hkept
  | cons e events ih => exact ih (linksKept_step hkept e)

theorem log_step (st : State) (e : Event) :
    (st.step c e).log = st.log ∨ ∃ r, (st.step c e).log = st.log ++ [r] ∧ r.now = e.now := by
  obtain ⟨now, act⟩ := e
  cases act with
  | request caller call =>
    simp only [step]
    split
    · exact .inl rfl
    · exact .inr ⟨_, rfl, rfl⟩
  | createLink account luna kind value token =>
    exact .inl (createLink_keeps (P := fun st' => st'.log = st.log) rfl (fun _ => rfl) ..)
  | revokeLink account id | purgeLinks account luna | other outside => exact .inl rfl

/-- The calls are answered in the order of their times. -/
theorem times_run (st : State) (events : List Event)
    (htimes : (st.log.map Entry.now ++ events.map Event.now).Pairwise (· ≤ ·)) :
    ((st.run c events).log.map Entry.now).Pairwise (· ≤ ·) := by
  induction events generalizing st with
  | nil =>
    rw [map_nil, append_nil] at htimes
    exact htimes
  | cons e events ih =>
    refine ih _ ?_
    obtain hsame | ⟨r, hlog, hnow⟩ := log_step (c := c) st e
    · rw [hsame]
      refine htimes.sublist ?_
      exact (List.Sublist.refl _).append (sublist_cons_self _ _)
    · rw [hlog, map_append, map_singleton, hnow, append_assoc]
      exact htimes

end State

end LibreServ.PrivateOpen
