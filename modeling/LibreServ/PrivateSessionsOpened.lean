import LibreServ.PrivateSessionsTraced

/-! What Connect sends of a private scope was opened before, by the same caller, for this scope and with a challenge
of their own. The tables know challenges and tokens by their hashes: that no two texts of the run have one hash is
assumed. -/

namespace LibreServ.PrivateOpen

open Option
open Files (Text)
open Cloud (Bytes Bytes32 bytesToHex)

variable (c : Primitives)

/-- The challenges and tokens a call was given or returned. -/
def Entry.hashed (e : Entry) : List Text :=
  (match e.call with
    | .newPrivateChallenge _ => []
    | .openPrivateSession _ challengeHex _ _ => [c.lower challengeHex]
    | .writeRecords _ token => [c.lower token]
    | .writePack _ token => [c.lower token]) ++
  (match e.answer with
    | .challenge challenge _ => [challenge]
    | .token token _ => [token]
    | _ => [])

/-- No two texts of these calls have one hash. -/
def NoCollision (log : List Entry) : Prop :=
  ∀ e ∈ log, ∀ e' ∈ log, ∀ x ∈ e.hashed c, ∀ y ∈ e'.hashed c, hashToken c x = hashToken c y → x = y

instance (log : List Entry) : Decidable (NoCollision c log) :=
  inferInstanceAs (Decidable (∀ e ∈ log, ∀ e' ∈ log, ∀ x ∈ e.hashed c, ∀ y ∈ e'.hashed c,
    hashToken c x = hashToken c y → x = y))

/-- The call at `m` opened a session with the challenge issued at `k`: no call in between issued it again. -/
def Uses (log : List Entry) (k m : Nat) : Prop :=
  k < m ∧ ∃ i o op, log[k]? = some i ∧ log[m]? = some o ∧ o.opened = some op ∧
    i.issued = some (c.lower op.challengeHex) ∧
    ∀ j e, k < j → j < m → log[j]? = some e → e.issued ≠ some (c.lower op.challengeHex)

variable {c} {log : List Entry} {e : Entry} {k m n : Nat}

/-! ### What a private scope is sent on -/

/-- The call `o` at `m` opened the scope that `r` sends something of, on the token `r` has: to the same caller, not too
long before, and on the signature of the scope's own key over a challenge that the same caller was given not too long
before that, and that no other call used. Through a link, the scope is that of the link's user. -/
structure OpenedFor (c : Primitives) (log : List Entry) (r : Entry) (scope token : Text) (m : Nat) (o : Entry)
    (op : Opening) : Prop where
  at_m : log[m]? = some o
  opened : o.opened = some op
  scope_eq : op.scope = scope
  token_eq : op.token = c.lower token
  caller : o.SameCaller r
  before : o.now ≤ r.now
  recent : r.now ≤ o.now + privateSessionTTL * second
  signed : ∃ rec challenge sig, HasScopeRecord c o.outside o.scope.account o.scope.luna scope rec ∧
    unhex (c.lower op.challengeHex) = some challenge ∧ unhex op.sigHex = some sig ∧
    lunaVerify c rec.authPublic "private-open" (State.openMessage o.scope.luna scope challenge) sig = true ∧
    ∀ id, r.link = some id → r.scope.kind = .user ∧ r.scope.value = scopePart c rec.userId
  challenge : ∃ (k : Nat) (i : Entry), log[k]? = some i ∧ i.issued = some (c.lower op.challengeHex) ∧
    i.SameCaller r ∧ i.now ≤ o.now ∧ o.now ≤ i.now + privateChallengeTTL * second ∧ Uses c log k m ∧
    ∀ m', Uses c log k m' → m' = m

theorem lapse_of_unix {a b ttl : Int} (h : unix a < unix b + ttl) : a ≤ b + ttl * second := by
  simp only [unix, second] at h ⊢
  omega

theorem before_of_lt {o r : Entry} (htimes : (log.map Entry.now).Pairwise (· ≤ ·)) (hlt : m < n)
    (ho : log[m]? = some o) (hr : log[n]? = some r) : o.now ≤ r.now := by
  obtain ⟨hm, rfl⟩ := List.getElem?_eq_some_iff.mp ho
  obtain ⟨hn, rfl⟩ := List.getElem?_eq_some_iff.mp hr
  have hpair := List.pairwise_iff_getElem.mp htimes m n (by simpa using hm) (by simpa using hn) hlt
  simpa using hpair

theorem issued_mem_hashed {x : Text} (hx : e.issued = some x) : x ∈ e.hashed c := by
  simp only [Entry.issued] at hx
  split at hx
  · rename_i hcall hanswer
    obtain rfl := some.inj hx
    simp [Entry.hashed, hanswer]
  · cases hx

theorem opened_mem_hashed {op : Opening} (hop : e.opened = some op) :
    c.lower op.challengeHex ∈ e.hashed c ∧ op.token ∈ e.hashed c := by
  simp only [Entry.opened] at hop
  split at hop
  · rename_i hcall hanswer
    obtain rfl := some.inj hop
    simp [Entry.hashed, hcall, hanswer]
  · cases hop

theorem sends_mem_hashed {scope token : Text} (hsends : e.Sends c scope token) : c.lower token ∈ e.hashed c := by
  cases hsends with
  | pack hcall _ _ _ | record hcall _ _ _ _ => simp [Entry.hashed, hcall]

/-- Without collisions, the hashes tell which challenge was used. -/
theorem usesHash_iff (hhash : NoCollision c log) : UsesHash c log k m ↔ Uses c log k m := by
  have hmem : ∀ {j : Nat} {e' : Entry}, log[j]? = some e' → e' ∈ log := List.mem_of_getElem?
  constructor
  · rintro ⟨hkm, i, o, x, op, hi, ho, hx, hop, heq, hbetween⟩
    have hsame : x = c.lower op.challengeHex :=
      hhash i (hmem hi) o (hmem ho) x (issued_mem_hashed hx) _ (opened_mem_hashed hop).1 heq
    refine ⟨hkm, i, o, op, hi, ho, hop, hsame ▸ hx, ?_⟩
    intro j e' hkj hjm hj hissued
    exact hbetween j e' _ hkj hjm hj hissued heq.symm
  · rintro ⟨hkm, i, o, op, hi, ho, hop, hx, hbetween⟩
    refine ⟨hkm, i, o, _, op, hi, ho, hx, hop, rfl, ?_⟩
    intro j e' y hkj hjm hj hy heq
    have hsame : y = c.lower op.challengeHex :=
      hhash e' (hmem hj) o (hmem ho) y (issued_mem_hashed hy) _ (opened_mem_hashed hop).1 heq
    exact hbetween j e' hkj hjm hj (hsame ▸ hy)

theorem openedFor_of_traced {st : State} (ht : Traced c st) (hkept : State.LinksKept st)
    (htimes : (st.log.map Entry.now).Pairwise (· ≤ ·)) (hhash : NoCollision c st.log) {r : Entry}
    {scope token : Text} (hr : st.log[n]? = some r) (hsends : r.Sends c scope token) :
    ∃ m o op, m < n ∧ OpenedFor c st.log r scope token m o op := by
  obtain ⟨m, o, op, hmn, ho, hop, hscope, htoken, hcaller, hrecent⟩ := ht.covered n r scope token hr hsends
  obtain ⟨⟨rec, hchecked⟩, k, i, hi, hsame, htime, huses⟩ := ht.proper m o op ho hop
  have hmem : ∀ {j : Nat} {e' : Entry}, st.log[j]? = some e' → e' ∈ st.log := List.mem_of_getElem?
  have huses' := (usesHash_iff hhash).mp huses
  have hissued : i.issued = some (c.lower op.challengeHex) := by
    obtain ⟨_, i', o', op', hi', ho', hop', hissued, _⟩ := huses'
    rw [hi] at hi'
    rw [ho] at ho'
    obtain rfl := some.inj hi'
    obtain rfl := some.inj ho'
    rw [hop] at hop'
    obtain rfl := some.inj hop'
    exact hissued
  have hpattern := State.pattern_of_loadScopeRecord hchecked.record
  have hrecord := (State.loadScopeRecord_iff hpattern).mp hchecked.record
  obtain ⟨challenge, sig, hchallenge, hsig, hverify⟩ := hchecked.signature
  refine ⟨m, o, op, hmn, ho, hop, hscope, ?_, hcaller, before_of_lt htimes hmn ho hr, lapse_of_unix hrecent,
    ⟨rec, challenge, sig, hscope ▸ hrecord, hchallenge, hsig, hscope ▸ hverify, ?_⟩,
    k, i, hi, hissued, ?_, before_of_lt htimes huses.1 hi ho, lapse_of_unix htime, huses', ?_⟩
  · exact hhash o (hmem ho) r (hmem hr) _ (opened_mem_hashed hop).2 _ (sends_mem_hashed hsends) htoken
  · intro id hid
    have hlink : o.link = some id := hcaller.2.2.trans hid
    have hagree : o.scope = r.scope := hkept.agree o (hmem ho) r (hmem hr) id hlink hid
    have hkind : o.scope.kind = .user := by
      have hmay := hchecked.mayOpen
      rw [hlink] at hmay
      simpa [State.mayOpen] using hmay
    rw [← hagree]
    exact ⟨hkind, (hchecked.user hkind).symm⟩
  · exact ⟨hsame.1.trans hcaller.1, hsame.2.1.trans hcaller.2.1, hsame.2.2.trans hcaller.2.2⟩
  · intro m' hm'
    exact ht.once k m' m ((usesHash_iff hhash).mpr hm') huses

/-- Private packs and private snapshot records are sent only on a session that was opened for them. -/
theorem private_needs_session (c : Primitives) (o : Outside) (events : List Event)
    (htimes : (events.map Event.now).Pairwise (· ≤ ·))
    (hhash : NoCollision c ((State.start o).run c events).log) {n : Nat} {r : Entry} {scope token : Text}
    (hr : ((State.start o).run c events).log[n]? = some r) (hsends : r.Sends c scope token) :
    ∃ m o' op, m < n ∧ OpenedFor c ((State.start o).run c events).log r scope token m o' op := by
  have ht := State.traced_run (traced_start c o) events
  have hkept := State.linksKept_run (c := c) (State.linksKept_start o) events
  have hlog := State.times_run (c := c) (State.start o) events htimes
  exact openedFor_of_traced ht hkept hlog hhash hr hsends

/-! ### A visit through a link -/

namespace Visit

def zeros (n : Nat) : Text := bytesToHex (List.replicate n 0)

def wire : ScopeRecordWire :=
  ⟨"l".toList, "s".toList, "ann".toList, zeros Cloud.sealPublicLen, zeros Cloud.sigPublicLen, 7,
    zeros Cloud.sealPublicLen, [], [], zeros Cloud.sigLen⟩

def primitives : Primitives where
  sha256 bytes := ⟨(bytes ++ List.replicate 32 0).take 32, by simp⟩
  edVerify _ _ _ := true
  mlVerify _ _ _ := true
  lower t := t.map Char.toLower
  unmarshalScope data := if data = [1] then some wire else none
  unmarshalSnapshot _ := none

def packId : Text := zeros 32

def outside : Outside where
  signingPublic _ _ := some (zeros Cloud.sigPublicLen)
  packScope _ _ id := if id = packId then some "s".toList else none
  recordNames _ _ _ := []
  get _ _ path :=
    match path with
    | .pack _ => .data [2]
    | .record _ name => if name = "s".toList then .data [1] else .missing
  packScope_valid account luna id scope h := by
    split at h
    · obtain rfl := Option.some.inj h
      exact Or.inr (by decide)
    · cases h
  record_valid account luna kind name data h := by
    dsimp only at h
    split at h
    · rename_i hname
      cases h
      rw [hname]
      exact ⟨by decide, by decide⟩
    · cases h

def user : Text := scopePart primitives "ann".toList

def linkToken : Text := "link".toList

def events : List Event :=
  [⟨0, .createLink "a".toList "l".toList .user user linkToken⟩,
    ⟨0, .request (.share linkToken) (.newPrivateChallenge (Cloud.Fixed.fill 32 1))⟩,
    ⟨10 ^ 9, .request (.share linkToken)
      (.openPrivateSession "s".toList (bytesToHex (List.replicate 32 1)) (zeros Cloud.sigLen)
        (Cloud.Fixed.fill 32 2))⟩,
    ⟨2 * 10 ^ 9, .request (.share linkToken) (.writePack packId (bytesToHex (List.replicate 32 2)))⟩]

def after : State := (State.start outside).run primitives events

def record : ScopeRecord :=
  ⟨"l".toList, "s".toList, "ann".toList, List.replicate Cloud.sealPublicLen 0, List.replicate Cloud.sigPublicLen 0, 7,
    List.replicate Cloud.sealPublicLen 0, [], []⟩

/-- What the last call was and how it was answered, once all of them are carried out. -/
def sent (log : List Entry) : Bool :=
  match log with
  | [_, _, e] =>
    e.call = .writePack packId (bytesToHex (List.replicate 32 2)) && e.answer = .pack [2] &&
      e.outside.packScope e.scope.account e.scope.luna packId = some "s".toList && e.scope.luna = "l".toList &&
      e.outside.signingPublic e.scope.account e.scope.luna = some (zeros Cloud.sigPublicLen) &&
      e.outside.get e.scope.account e.scope.luna (.record "pscopes".toList "s".toList) = .data [1]
  | _ => false

theorem sent_after : sent after.log = true ∧ NoCollision primitives after.log ∧
    parseScopeRecord primitives [1] (zeros Cloud.sigPublicLen) = some record := by decide +kernel

theorem sends_of_sent {log : List Entry} (hsent : sent log = true) :
    ∃ e, log[2]? = some e ∧ e.Sends primitives "s".toList (bytesToHex (List.replicate 32 2)) := by
  unfold sent at hsent
  split at hsent
  · rename_i e
    simp only [Bool.and_eq_true, decide_eq_true_eq] at hsent
    obtain ⟨⟨⟨⟨⟨hcall, hanswer⟩, htag⟩, hluna⟩, hsigning⟩, hget⟩ := hsent
    exact ⟨e, rfl, .pack hcall hanswer htag ⟨hluna.symm, rfl, _, _, hsigning, hget, sent_after.2.2⟩⟩
  · cases hsent

end Visit

theorem private_needs_session_visit : ∃ r m o op, Visit.after.log[2]? = some r ∧ m < 2 ∧
      OpenedFor Visit.primitives Visit.after.log r "s".toList (bytesToHex (List.replicate 32 2)) m o op := by
  obtain ⟨r, hr, hsends⟩ := Visit.sends_of_sent Visit.sent_after.1
  obtain ⟨m, o, op, hm, hopened⟩ := private_needs_session Visit.primitives Visit.outside Visit.events (by decide)
    Visit.sent_after.2.1 hr hsends
  exact ⟨r, m, o, op, hr, hm, hopened⟩

end LibreServ.PrivateOpen
