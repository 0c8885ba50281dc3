import LibreServ.CloudCopies
import LibreServ.Phrase

/-! What saves of a phrase keep. A save that finds the keys its request read, or that proved the password,
leaves every live scope and every saved reader list with the keys it puts in place. A save that finds other
keys does not: a first phrase saved over another first phrase asks for no proof and changes no scope and no
list. -/

namespace LibreServ.Phrase

open Cloud List Option Table

variable {c : Crypto} {j : Json} {scope owner : String} {now : ℤ} {made : ScopeRow} {keys : UserKeys}

/-- The scope's secret is sealed to this key. -/
def SealedTo (c : Crypto) (lunaId scope : String) (row : ScopeRow) (key : Bytes) : Prop :=
  row.sealPublic = key ∧ ∃ (recipient : SealPublic) (rand : Bytes) (secret : SealSecret), recipient.val = key ∧
    row.sealedScopeSecret
      = c.sealCopy rand recipient (Scopes.aad "luna-private-scope-secret-v1" lunaId scope) secret.val ∧
    (c.sealPublic secret).val = row.scopePublic

structure Good (c : Crypto) (s : State) : Prop where
  oneActive : ∀ a b rowA rowB, s.scopes.get? a = some rowA → s.scopes.get? b = some rowB →
    rowA.owner = rowB.owner → rowA.state = .active → rowB.state = .active → a = b
  sealedTo : ∀ scope row, s.scopes.get? scope = some row → row.state ≠ .oldPhrase →
    ∃ id keys, s.db.identity = some id ∧ s.db.userKeys.get? row.owner = some keys ∧
      SealedTo c id.lunaId scope row keys.sealPublic
  readers : ∀ version readers, s.db.readers.get? version = some readers → ∀ r ∈ readers,
    ∃ keys, s.db.userKeys.get? r.1 = some keys ∧ r.2 = keys.sealPublic
  replaced : ∀ r ∈ s.replaced, r.proven.Of r.before

/-- The keys the user has are under the same auth key as those the request read, or the request read some
keys and proved the password. -/
def InOrder (a : Accepted) (s : State) : Prop :=
  ∀ keys, s.db.userKeys.get? a.user = some keys →
    a.old.map UserKeys.authPublic = some keys.authPublic ∨ (a.old.isSome ∧ a.proven = .password)

/-- The browser re-sealed each scope it sent correctly. -/
def ReSeals (c : Crypto) (a : Accepted) (s : State) : Prop :=
  ∀ scope sealed id row, (scope, sealed) ∈ a.body.rescoped → s.db.identity = some id →
    s.scopes.get? scope = some row → ∃ (rand : Bytes) (secret : SealSecret),
      sealed = c.sealCopy rand a.body.sealPublic (Scopes.aad "luna-private-scope-secret-v1" id.lunaId scope)
        secret.val ∧ (c.sealPublic secret).val = row.scopePublic

/-- Every save of the run is one of a request that re-sealed correctly and is in order. -/
def Orderly (c : Crypto) (j : Json) : List Event → State → Prop
  | [], _ => True
  | e :: es, s =>
    (∀ k a, e = .save k → s.requests[k]? = some a → ReSeals c a s ∧ InOrder a s) ∧
      Orderly c j es (exec c j e s)

/-! ### Steps that save nothing -/

/-- A step that keeps the keys, the identity and the scopes, and saves only reader lists made from the keys. -/
theorem Good.of_same {s t : State} (h : Good c s) (hscopes : t.scopes = s.scopes)
    (hidentity : t.db.identity = s.db.identity) (hkeys : t.db.userKeys = s.db.userKeys)
    (hreplaced : t.replaced = s.replaced)
    (hreaders : ∀ version readers, t.db.readers.get? version = some readers →
      s.db.readers.get? version = some readers ∨
        ∀ r ∈ readers, ∃ keys, s.db.userKeys.get? r.1 = some keys ∧ r.2 = keys.sealPublic) : Good c t := by
  refine ⟨?_, ?_, ?_, ?_⟩
  · rw [hscopes]
    exact h.oneActive
  · rw [hscopes, hidentity, hkeys]
    exact h.sealedTo
  · intro version readers hget
    rw [hkeys]
    rcases hreaders version readers hget with hold | hnew
    · exact h.readers version readers hold
    · exact hnew
  · rw [hreplaced]
    exact h.replaced

theorem keys_of_runRecipients {db : Db} {row : Protection} {user : String} (h : user ∈ runRecipients db row) :
    ∃ keys, db.userKeys.get? user = some keys := by
  have hmem : user ∈ (db.users.rows.filter fun u =>
      row.access.allows u.1 u.2.admin ∧ ((userPublics db).get? u.1).isSome).map Prod.fst := by
    rw [runRecipients, recipientsOf, mem_dedup, mem_insertionSort] at h
    exact h
  obtain ⟨u, hu, rfl⟩ := mem_map.mp hmem
  have hpublic := (mem_filter.mp hu).2
  rw [decide_eq_true_iff] at hpublic
  obtain ⟨k, hk⟩ := isSome_iff_exists.mp hpublic.2
  obtain ⟨r, hr, hfixed⟩ := mem_filterMap.mp (mem_rows.mpr hk)
  obtain ⟨k', _, hpair⟩ := map_eq_some_iff.mp hfixed
  have hname : r.1 = u.1 := congrArg Prod.fst hpair
  exact ⟨r.2, mem_rows.mp (hname ▸ hr)⟩

theorem readersOf_keys {db : Db} {recipients : List String}
    (h : ∀ user ∈ recipients, ∃ keys, db.userKeys.get? user = some keys) :
    ∀ r ∈ readersOf db recipients, ∃ keys, db.userKeys.get? r.1 = some keys ∧ r.2 = keys.sealPublic := by
  intro r hr
  obtain ⟨user, huser, rfl⟩ := mem_map.mp hr
  obtain ⟨keys, hkeys⟩ := h user huser
  refine ⟨keys, hkeys, ?_⟩
  rw [hkeys, map_some, getD_some]

variable {s : State}

theorem Good.prepare (h : Good c s) (protection : String) (now : ℤ) (i : Input) :
    Good c { s with db := (Cloud.prepare c j protection now i s.db).2 } := by
  rcases prepare_inv (c := c) (j := j) protection now i s.db with ⟨hdb, _⟩ | ⟨row, luna, key, db', _, _, hkey, hdb, _⟩
  · rw [hdb]
    exact h
  rw [hdb]
  rcases ensureKey_ok hkey with ⟨rfl, _⟩ | ⟨_, _, hmade⟩
  · exact h.of_same rfl rfl rfl rfl fun version readers hget => .inl hget
  rw [hmade]
  refine h.of_same rfl rfl rfl rfl fun version readers hget => ?_
  have hget : (s.db.readers.put (protection, key.version) (readersOf s.db (runRecipients s.db row))).get? version
      = some readers := hget
  rcases get?_put_some.mp hget with ⟨-, rfl⟩ | ⟨-, hget⟩
  · exact .inr (readersOf_keys fun user huser => keys_of_runRecipients huser)
  · exact .inl hget

variable {scopes : Table String ScopeRow}

theorem no_active_of_none
    (h : activePrivateScope scopes owner = none) {row : ScopeRow}
    (hrow : scopes.get? scope = some row) (howner : row.owner = owner) : row.state ≠ .active := by
  intro hactive
  rw [activePrivateScope, head?_eq_none_iff] at h
  have hmem : (scope, row) ∈ (scopes.select fun _ row => row.owner = owner ∧ row.state = .active).insertionSort
      fun a b => b.2.createdAt ≤ a.2.createdAt :=
    (mem_insertionSort _).mpr (mem_select.mpr ⟨hrow, decide_eq_true ⟨howner, hactive⟩⟩)
  rw [h] at hmem
  cases hmem

/-- `ensure_scope` finds the active scope, or makes one that is sealed to the key it is given. -/
theorem ensureScope_ok {lunaId : String} {ownerPublic : SealPublic} {dedup : Bytes32}
    {secret : SealSecret} {rand : Bytes} {scopes scopes' : Table String ScopeRow}
    (h : ensureScope c lunaId owner ownerPublic now dedup secret rand scopes = .ok ((scope, made), scopes')) :
    scopes' = scopes ∨
    (activePrivateScope scopes owner = none ∧ scopes' = scopes.put scope made ∧ made.owner = owner ∧
      SealedTo c lunaId scope made ownerPublic.val) := by
  unfold ensureScope at h
  split at h
  · cases h
    exact .inl rfl
  rename_i hnone
  dsimp only at h
  split at h
  · cases h
  rename_i sealed hsealed
  split at h
  · cases h
  cases h
  have hcopy : c.sealCopy rand ownerPublic
      (Scopes.aad "luna-private-scope-secret-v1" lunaId (scopeText (scopeIdOf c dedup))) secret.val
        = sealed := by
    unfold Crypto.sealTo at hsealed
    split at hsealed
    · exact Except.ok.inj hsealed
    · cases hsealed
  exact .inr ⟨hnone, rfl, rfl, rfl, ownerPublic, rand, secret, rfl, hcopy.symm, rfl⟩

theorem Good.addScope {id : Identity}
    (h : Good c s) (hnone : activePrivateScope s.scopes owner = none) (howner : made.owner = owner)
    (hid : s.db.identity = some id) (hkeys : s.db.userKeys.get? owner = some keys)
    (hsealed : SealedTo c id.lunaId scope made keys.sealPublic) :
    Good c { s with scopes := s.scopes.put scope made } := by
  refine ⟨?_, ?_, h.readers, h.replaced⟩
  · intro a b rowA rowB ha hb hsame hactiveA hactiveB
    simp only [get?_put] at ha hb
    split at ha
    · rename_i hascope
      cases ha
      split at hb
      · rename_i hbscope
        rw [hascope, hbscope]
      · exact absurd hactiveB (no_active_of_none hnone hb (hsame.symm.trans howner))
    · split at hb
      · cases hb
        exact absurd hactiveA (no_active_of_none hnone ha (hsame.trans howner))
      · exact h.oneActive a b rowA rowB ha hb hsame hactiveA hactiveB
  · intro scope' row hrow hlive
    rcases get?_put_some.mp hrow with ⟨hscope, rfl⟩ | ⟨-, hrow⟩
    · exact ⟨id, keys, hid, howner ▸ hkeys, hscope ▸ hsealed⟩
    · exact h.sealedTo scope' row hrow hlive

theorem Good.startRun {db : Db} {id : Id} {protection : String} {scope : Bytes}
    (h : Good c s) (hdb : s.db.startRun id protection scope now = .ok db) : Good c { s with db := db } := by
  unfold Db.startRun at hdb
  split at hdb
  · cases hdb
  · cases hdb
    exact h.of_same rfl rfl rfl rfl fun version readers hget => .inl hget

theorem Good.ensureScope {ownerPublic : SealPublic} {dedup : Bytes32}
    {secret : SealSecret} {rand : Bytes} {id : Identity}
    (h : Good c s) (hid : s.db.identity = some id)
    (hkeys : s.db.userKeys.get? owner = some keys) (hpublic : ownerPublic.val = keys.sealPublic)
    (hmade : ensureScope c id.lunaId owner ownerPublic now dedup secret rand s.scopes
      = .ok ((scope, made), scopes)) : Good c { s with scopes := scopes } := by
  rcases ensureScope_ok hmade with rfl | ⟨hnone, rfl, howner, hsealed⟩
  · exact h
  · exact h.addScope hnone howner hid hkeys (hpublic ▸ hsealed)

theorem Good.preparePrivate (h : Good c s) (protection : String) (now : ℤ) (i : Input)
    (secret : SealSecret) : Good c (preparePrivate c protection now i secret s).2 := by
  unfold Phrase.preparePrivate
  split
  · exact h
  split
  · exact h
  split
  · exact h
  rename_i keys hkeys
  split
  · exact h
  rename_i ownerPublic authPublic identity hpublic
  split
  · exact h
  split
  · exact h
  · exact h
  · rename_i id hauth hid
    split
    · exact h
    rename_i scope made scopes hmade
    have hgood := h.ensureScope hid hkeys (toFixed_eq_some hpublic) hmade
    split
    · exact hgood
    · split
      · exact hgood
      · rename_i db hdb
        exact hgood.startRun hdb

theorem Good.erase (h : Good c s) (scope : String) :
    Good c { s with kept := s.kept.erase scope, scopes := s.scopes.erase scope } := by
  have hold : ∀ {scope' : String} {row : ScopeRow}, (s.scopes.erase scope).get? scope' = some row →
      s.scopes.get? scope' = some row := by
    intro scope' row hrow
    exact (get?_erase_some.mp hrow).2
  refine ⟨?_, ?_, h.readers, h.replaced⟩
  · intro a b rowA rowB ha hb
    exact h.oneActive a b rowA rowB (hold ha) (hold hb)
  · intro scope' row hrow
    exact h.sealedTo scope' row (hold hrow)

/-! ### Saving -/

/-- What a save makes of a row: another owner's is as it was; the user's own is sealed to the new key with
what the browser sent, or it is no longer live. -/
structure Settles (a : Accepted) (scope : String) (row row' : ScopeRow) : Prop where
  owner : row'.owner = row.owner
  active : row'.state = .active → row.state = .active
  others : row.owner ≠ a.user → row' = row
  own : row.owner = a.user → row'.state ≠ .oldPhrase → row.state ≠ .oldPhrase ∧
    row'.scopePublic = row.scopePublic ∧ row'.sealPublic = a.body.sealPublic.val ∧
    (scope, row'.sealedScopeSecret) ∈ a.body.rescoped

theorem mem_of_lookup_eq_some {α β : Type} [DecidableEq α] {l : List (α × β)} {k : α} {v : β}
    (h : l.lookup k = some v) : (k, v) ∈ l := by
  induction l with
  | nil => cases h
  | cons r l ih =>
    obtain ⟨k', v'⟩ := r
    rw [lookup_cons] at h
    split at h
    · rename_i hk
      cases h
      rw [beq_iff_eq.mp hk]
      exact mem_cons_self
    · exact mem_cons_of_mem _ (ih h)

theorem settleRow_none (new : SealPublic) (exposed : Bool) (now : ℤ) (row : ScopeRow) :
    settleRow new exposed now none row = if row.state = .oldPhrase then row
      else { row with state := .oldPhrase, retireAfter := now + oldPhraseGrace } := by
  unfold settleRow
  cases hstate : row.state with
  | active | history | oldPhrase => rfl

theorem settleRow_some (new : SealPublic) (exposed : Bool) (now : ℤ) (sealed : Bytes) (row : ScopeRow) :
    settleRow new exposed now (some sealed) row = if exposed ∧ row.state = .active then
        { row with sealPublic := new.val, sealedScopeSecret := sealed, state := .history, retireAfter := 0 }
      else { row with sealPublic := new.val, sealedScopeSecret := sealed } := by
  unfold settleRow
  cases hstate : row.state with
  | active | history | oldPhrase => rfl

theorem settles_settleRow (a : Accepted) (scope : String) (row : ScopeRow) :
    Settles a scope row (if row.owner = a.user then
      settleRow a.body.sealPublic a.exposed a.now (a.body.rescoped.lookup scope) row else row) := by
  by_cases hown : row.owner = a.user
  · rw [if_pos hown]
    cases hfresh : a.body.rescoped.lookup scope with
    | none =>
      rw [settleRow_none]
      split
      · rename_i hold
        exact ⟨rfl, id, fun hother => absurd hown hother, fun _ hlive => absurd hold hlive⟩
      · exact ⟨rfl, fun h => (nomatch h), fun hother => absurd hown hother, fun _ hlive => absurd rfl hlive⟩
    | some sealed =>
      have hmem := mem_of_lookup_eq_some hfresh
      rw [settleRow_some]
      split
      · rename_i hcond
        have hlive : row.state ≠ .oldPhrase := by
          rw [hcond.2]
          exact fun h => nomatch h
        exact ⟨rfl, fun h => (nomatch h), fun hother => absurd hown hother, fun _ _ => ⟨hlive, rfl, rfl, hmem⟩⟩
      · exact ⟨rfl, id, fun hother => absurd hown hother, fun _ hlive => ⟨hlive, rfl, rfl, hmem⟩⟩
  · rw [if_neg hown]
    exact ⟨rfl, id, fun _ => rfl, fun h => absurd h hown⟩

theorem settles_retire (a : Accepted) (scope : String) (row : ScopeRow) (retireAfter : ℤ) :
    Settles a scope row (if row.owner = a.user ∧ row.state ≠ .oldPhrase then
      { row with state := .oldPhrase, retireAfter := retireAfter } else row) := by
  split
  · rename_i hcond
    exact ⟨rfl, fun h => (nomatch h), fun hother => absurd hcond.1 hother, fun _ hlive => absurd rfl hlive⟩
  · rename_i hcond
    exact ⟨rfl, id, fun _ => rfl, fun hown hlive => absurd ⟨hown, hlive⟩ hcond⟩

variable {a : Accepted}

theorem Settles.retireNow {row row' : ScopeRow} (h : Settles a scope row row')
    (now : ℤ) : Settles a scope row (if row'.owner = a.user ∧ row'.state = .oldPhrase then
      { row' with retireAfter := now } else row') := by
  split
  · rename_i hcond
    refine ⟨h.owner, h.active, fun hother => absurd (h.owner ▸ hcond.1) hother, fun _ hlive => ?_⟩
    exact absurd hcond.2 hlive
  · exact h

/-- The transaction's effect. A first phrase changes nothing but the keys. -/
structure Saved (a : Accepted) (s t : State) : Prop where
  keys : t.db.userKeys = s.db.userKeys.put a.user
    ⟨a.body.sealPublic.val, a.body.authPublic.val, a.body.selfSealed⟩
  identity : t.db.identity = s.db.identity
  first : a.old = none → t.scopes = s.scopes ∧ t.db.readers = s.db.readers
  later : a.old.isSome → (t.db.readers = (replaceReader s.db a.user a.body.sealPublic.val).readers) ∧
    ∀ scope row', t.scopes.get? scope = some row' → ∃ row, s.scopes.get? scope = some row ∧
      Settles a scope row row'

theorem settles_update {f : String → ScopeRow → ScopeRow}
    (h : ∀ scope row, Settles a scope row (f scope row)) {row' : ScopeRow}
    (hrow : (scopes.update f).get? scope = some row') :
    ∃ row, scopes.get? scope = some row ∧ Settles a scope row row' := by
  obtain ⟨row, hget, rfl⟩ := get?_update_some.mp hrow
  exact ⟨row, hget, h scope row⟩

theorem settleScopes_ok {new : SealPublic} {rescoped : List (String × Bytes)} {exposed : Bool}
    {scopes scopes' : Table String ScopeRow} {kept kept' : Table String KeptScopeSecret}
    {resealed : List String}
    (h : settleScopes owner new rescoped exposed now scopes kept = .ok (scopes', kept', resealed)) :
    scopes' = scopes.update fun scope row =>
      if row.owner = owner then settleRow new exposed now (rescoped.lookup scope) row else row := by
  unfold settleScopes at h
  split at h
  · cases h
  · cases h
    rfl

theorem saved_of_saveTx {s t : State} (h : saveTx a s = .ok t) :
    Saved a s t ∧ t.replaced = s.replaced := by
  unfold saveTx at h
  cases hold : a.old with
  | none =>
    rw [hold] at h
    cases h
    exact ⟨⟨rfl, rfl, fun _ => ⟨rfl, rfl⟩, fun hsome => by rw [hold] at hsome; cases hsome⟩, rfl⟩
  | some old =>
    rw [hold] at h
    simp only [queueReseal, replaceReader, get?_put_self] at h
    have hlater : ¬ a.old = none := by
      rw [hold]
      exact fun hnone => by cases hnone
    simp only [bind, Except.bind] at h
    split at h
    · split at h
      · cases h
      rename_i r hsettle
      obtain ⟨scopes, kept, resealed⟩ := r
      cases h
      refine ⟨⟨rfl, rfl, fun hnone => absurd hnone hlater, fun _ => ⟨rfl, fun scope row' hrow => ?_⟩⟩, rfl⟩
      have hrow : scopes.get? scope = some row' := hrow
      rw [settleScopes_ok hsettle] at hrow
      exact settles_update (settles_settleRow a) hrow
    · cases h
      refine ⟨⟨rfl, rfl, fun hnone => absurd hnone hlater, fun _ => ⟨rfl, fun scope row' hrow => ?_⟩⟩, rfl⟩
      split at hrow
      · rw [retireOldPhraseNow, get?_update, map_eq_some_iff] at hrow
        obtain ⟨row₁, hget, rfl⟩ := hrow
        obtain ⟨row, hrow, hsettles⟩ := settles_update (fun scope row => settles_retire a scope row _) hget
        exact ⟨row, hrow, hsettles.retireNow a.now⟩
      · exact settles_update (fun scope row => settles_retire a scope row _) hrow

/-- A first phrase in order finds no keys, so nothing of the user's is sealed to any. -/
theorem keys_none_of_first (hfirst : a.old = none) (horder : InOrder a s) :
    s.db.userKeys.get? a.user = none := by
  cases hkeys : s.db.userKeys.get? a.user with
  | none => rfl
  | some keys =>
    have hcases := horder keys hkeys
    rw [hfirst] at hcases
    rcases hcases with hauth | ⟨hsome, _⟩
    · cases hauth
    · cases hsome

theorem Good.first {s t : State} (h : Good c s) (hfirst : a.old = none) (horder : InOrder a s)
    (hsaved : Saved a s t) (hreplaced : t.replaced = s.replaced) : Good c t := by
  have hnone := keys_none_of_first hfirst horder
  obtain ⟨hscopes, hreaders⟩ := hsaved.first hfirst
  have hkeep : ∀ {user : String} {keys : UserKeys}, s.db.userKeys.get? user = some keys →
      t.db.userKeys.get? user = some keys := by
    intro user keys hkeys
    have hne : user ≠ a.user := by
      intro heq
      rw [heq, hnone] at hkeys
      cases hkeys
    rw [hsaved.keys, get?_put_of_ne _ _ hne]
    exact hkeys
  refine ⟨?_, ?_, ?_, ?_⟩
  · rw [hscopes]
    exact h.oneActive
  · intro scope row hrow hlive
    rw [hscopes] at hrow
    obtain ⟨id, keys, hid, hkeys, hsealed⟩ := h.sealedTo scope row hrow hlive
    exact ⟨id, keys, hsaved.identity.trans hid, hkeep hkeys, hsealed⟩
  · intro version readers hget r hr
    rw [hreaders] at hget
    obtain ⟨keys, hkeys, hkey⟩ := h.readers version readers hget r hr
    exact ⟨keys, hkeep hkeys, hkey⟩
  · rw [hreplaced]
    exact h.replaced

theorem Good.later {s t : State} (h : Good c s) (hlater : a.old.isSome) (hseals : ReSeals c a s)
    (hsaved : Saved a s t) (hreplaced : ∀ r ∈ t.replaced, r.proven.Of r.before) : Good c t := by
  obtain ⟨hreaders, hscopes⟩ := hsaved.later hlater
  refine ⟨?_, ?_, ?_, hreplaced⟩
  · intro x y rowX rowY hx hy hsame hactiveX hactiveY
    obtain ⟨oldX, hoX, hsX⟩ := hscopes x rowX hx
    obtain ⟨oldY, hoY, hsY⟩ := hscopes y rowY hy
    have howner : oldX.owner = oldY.owner := (hsX.owner.symm.trans hsame).trans hsY.owner
    exact h.oneActive x y oldX oldY hoX hoY howner (hsX.active hactiveX) (hsY.active hactiveY)
  · intro scope row' hrow hlive
    obtain ⟨row, hold, hsettles⟩ := hscopes scope row' hrow
    by_cases hown : row.owner = a.user
    · -- the user's own: what the browser sent is sealed to the new key
      obtain ⟨hliveOld, hpublic, hkey, hmem⟩ := hsettles.own hown hlive
      obtain ⟨id, _, hid, _⟩ := h.sealedTo scope row hold hliveOld
      obtain ⟨rand, secret, hcopy, hsecret⟩ := hseals scope _ id row hmem hid hold
      refine ⟨id, ⟨a.body.sealPublic.val, a.body.authPublic.val, a.body.selfSealed⟩, hsaved.identity.trans hid,
        ?_, hkey, a.body.sealPublic, rand, secret, rfl, hcopy, ?_⟩
      · rw [hsettles.owner, hown, hsaved.keys, get?_put_self]
      · rw [hpublic]
        exact hsecret
    · have hsame := hsettles.others hown
      subst hsame
      obtain ⟨id, keys, hid, hkeys, hsealed⟩ := h.sealedTo scope row' hold hlive
      refine ⟨id, keys, hsaved.identity.trans hid, ?_, hsealed⟩
      rw [hsaved.keys, get?_put_of_ne _ _ hown]
      exact hkeys
  · intro version readers hget r hr
    rw [hreaders, replaceReader, get?_update, map_eq_some_iff] at hget
    obtain ⟨before, hbefore, rfl⟩ := hget
    obtain ⟨r₀, hr₀, rfl⟩ := mem_map.mp hr
    obtain ⟨keys, hkeys, hkey⟩ := h.readers version before hbefore r₀ hr₀
    rw [hsaved.keys]
    by_cases huser : r₀.1 = a.user
    · rw [if_pos huser, huser]
      exact ⟨_, get?_put_self .., rfl⟩
    · rw [if_neg huser, get?_put_of_ne _ _ huser]
      exact ⟨keys, hkeys, hkey⟩

/-- In order, the keys a save replaces were proven. -/
theorem proven_of_inOrder (horder : InOrder a s)
    (hkeys : s.db.userKeys.get? a.user = some keys) : a.proven.Of keys := by
  rcases horder keys hkeys with hauth | ⟨_, hpassword⟩
  · obtain ⟨old, hold, hsame⟩ := map_eq_some_iff.mp hauth
    rcases a.proven_old old hold with hpassword | hphrase
    · exact .inl hpassword
    · exact .inr (hsame ▸ hphrase)
  · exact .inl hpassword

/-- And out of order they were not. -/
theorem not_proven_of_not_inOrder (h : ¬ InOrder a s) :
    ∃ keys, s.db.userKeys.get? a.user = some keys ∧ ¬ a.proven.Of keys := by
  simp only [InOrder, not_forall] at h
  obtain ⟨keys, hkeys, hneither⟩ := h
  refine ⟨keys, hkeys, fun hproven => hneither ?_⟩
  cases hold : a.old with
  | none =>
    rw [a.proven_none hold] at hproven
    rcases hproven with hbad | hbad
    · cases hbad
    · cases hbad
  | some old =>
    rcases hproven with hpassword | hphrase
    · exact .inr ⟨rfl, hpassword⟩
    · rcases a.proven_old old hold with hpassword | hphrase'
      · exact .inr ⟨rfl, hpassword⟩
      · rw [hphrase] at hphrase'
        exact .inl (congrArg some (Proven.oldPhrase.inj hphrase').symm)

theorem save_ok {s t : State} (h : save a s = .ok t) : Saved a s t ∧ t.replaced
      = s.replaced ++ ((s.db.userKeys.get? a.user).map fun keys => ⟨keys, a.proven⟩).toList := by
  unfold save at h
  split at h
  · cases h
  split at h
  · cases h
  · rename_i s' htx
    cases h
    obtain ⟨⟨hkeys, hidentity, hfirst, hlater⟩, _⟩ := saved_of_saveTx htx
    exact ⟨⟨hkeys, hidentity, hfirst, hlater⟩, rfl⟩

theorem Good.save {s t : State} (h : Good c s) (hseals : ReSeals c a s) (horder : InOrder a s)
    (hsave : save a s = .ok t) : Good c t := by
  obtain ⟨hsaved, hreplaced⟩ := save_ok hsave
  cases hold : a.old with
  | none =>
    refine h.first hold horder hsaved ?_
    rw [hreplaced, keys_none_of_first hold horder]
    exact append_nil _
  | some old =>
    refine h.later (hold ▸ rfl) hseals hsaved ?_
    intro r hr
    rw [hreplaced, mem_append] at hr
    rcases hr with hr | hr
    · exact h.replaced r hr
    · obtain ⟨keys, hkeys, rfl⟩ := map_eq_some_iff.mp (mem_toList.mp hr)
      exact proven_of_inOrder horder hkeys

theorem not_good_of_save {s t : State} (hsave : save a s = .ok t) (horder : ¬ InOrder a s) :
    ¬ Good c t := by
  intro hgood
  obtain ⟨keys, hkeys, hnot⟩ := not_proven_of_not_inOrder horder
  have hmem : (⟨keys, a.proven⟩ : Replaced) ∈ t.replaced := by
    rw [(save_ok hsave).2, hkeys]
    exact mem_append_right _ (mem_singleton_self _)
  exact hnot (hgood.replaced _ hmem)

/-! ### Whole runs -/

theorem Good.requests (h : Good c s) (requests : List Accepted) :
    Good c { s with requests := requests } := ⟨h.oneActive, h.sealedTo, h.readers, h.replaced⟩

theorem Good.exec {e : Event} (h : Good c s)
    (horderly : ∀ k a, e = .save k → s.requests[k]? = some a → ReSeals c a s ∧ InOrder a s) :
    Good c (exec c j e s) := by
  cases e with
  | request user body i =>
    simp only [Phrase.exec]
    split
    · exact h.requests _
    · exact h
  | mint id =>
    simp only [Phrase.exec]
    split
    · exact h
    · rename_i hnone
      refine ⟨h.oneActive, fun scope row hrow hlive => ?_, h.readers, h.replaced⟩
      obtain ⟨id', _, hid', _⟩ := h.sealedTo scope row hrow hlive
      rw [hid'] at hnone
      exact absurd rfl hnone
  | drop k => exact h.requests _
  | save k =>
    simp only [Phrase.exec]
    split
    · exact h
    rename_i a ha
    obtain ⟨hseals, horder⟩ := horderly k a rfl ha
    split
    · rename_i t hsave
      exact (h.save hseals horder hsave).requests _
    · exact h.requests _
  | prepare protection now i => exact h.prepare protection now i
  | preparePrivate protection now i secret => exact h.preparePrivate protection now i secret
  | listDue now => exact ⟨h.oneActive, h.sealedTo, h.readers, h.replaced⟩
  | retire scope =>
    simp only [Phrase.exec]
    split
    · exact h.erase scope
    · exact h

/-- In every run whose saves are in order nothing is stranded, and a save that is not, if it goes through,
replaces keys that its request did not prove. -/
theorem phrase_saves_keep (c : Crypto) (j : Json) : (∀ es s, Good c s → Orderly c j es s → Good c (run c j es s)) ∧
    ∀ k a s, s.requests[k]? = some a → (∃ t, save a s = .ok t) → ¬ InOrder a s →
      ¬ Good c (exec c j (.save k) s) := by
  refine ⟨fun es => ?_, ?_⟩
  · induction es with
    | nil => exact fun s h _ => h
    | cons e es ih =>
      intro s h horderly
      exact ih _ (h.exec horderly.1) horderly.2
  · intro k a s ha hsave horder hgood
    obtain ⟨t, hsave⟩ := hsave
    simp only [exec, ha, hsave] at hgood
    exact not_good_of_save hsave horder ⟨hgood.oneActive, hgood.sealedTo, hgood.readers, hgood.replaced⟩

/-! ### Two runs -/

/-- A phrase of which everything is told by one byte. -/
def phraseBody (b : UInt8) (proof : Option ProofKind) (exposed : Option Bool) : SetBody where
  sealPublic := toyCrypto.sealPublic (Fixed.fill sealSecretLen b)
  authPublic := Fixed.fill sigPublicLen b
  selfSealed := [b]
  proof := proof
  exposed := exposed
  signature := none
  password := none
  rescoped := []
  words := some 24

def proofInput : ProofInput := ⟨none, true, fun _ => true, 7⟩

/-- Ada has an account and a private item to back up, and no phrase yet. -/
def newAccount : State where
  db := { Db.empty with
    users := Table.empty.put "ada" ⟨true, "ada", "Ada"⟩
    protections := Table.empty.put "photos" ⟨"drive", "Photos", "ada", "ada", ⟨["ada"], true⟩⟩
    identity := some ⟨"luna", Fixed.fill 32 0⟩ }
  scopes := .empty
  kept := .empty
  marks := .empty
  requests := []
  due := []
  replaced := []

theorem good_newAccount : Good toyCrypto newAccount where
  oneActive _ _ _ _ h := nomatch h
  sealedTo _ _ h := nomatch h
  readers _ _ h := nomatch h
  replaced _ h := nomatch h

/-- Two first phrases are on their way; a private run starts between their saves. -/
def twoFirstPhrases : List Event :=
  [.request "ada" (phraseBody 1 none none) proofInput, .request "ada" (phraseBody 2 none none) proofInput,
    .save 0, .preparePrivate "photos" 8 (.drawn 3) (Fixed.fill sealSecretLen 4), .save 0]

/-- Some active scope is not sealed to its owner's key. -/
def stranded (s : State) : Bool :=
  s.scopes.any fun _ row =>
    row.state = .active ∧ (s.db.userKeys.get? row.owner).map UserKeys.sealPublic ≠ some row.sealPublic

theorem not_good_of_stranded (h : stranded s = true) : ¬ Good c s := by
  intro hgood
  obtain ⟨scope, row, hrow, hcond⟩ := any_iff.mp h
  rw [decide_eq_true_iff] at hcond
  have hlive : row.state ≠ .oldPhrase := by
    rw [hcond.1]
    exact fun h => nomatch h
  obtain ⟨_, keys, _, hkeys, hsealed, _⟩ := hgood.sealedTo scope row hrow hlive
  rw [hkeys, hsealed] at hcond
  exact hcond.2 rfl

theorem twoFirstPhrases_strand :
    Good toyCrypto newAccount ∧ ¬ Good toyCrypto (run toyCrypto toyJson twoFirstPhrases newAccount) := by
  refine ⟨good_newAccount, not_good_of_stranded ?_⟩
  decide +kernel

instance (a : Accepted) (s : State) : Decidable (InOrder a s) :=
  decidable_of_iff (∀ keys ∈ s.db.userKeys.get? a.user,
    a.old.map UserKeys.authPublic = some keys.authPublic ∨ (a.old.isSome ∧ a.proven = .password)) Iff.rfl

/-- The event saves in order, if it saves, and re-seals nothing. -/
def savesInOrder (s : State) : Event → Bool
  | .save k => (s.requests[k]?).all fun a => decide (a.body.rescoped = [] ∧ InOrder a s)
  | _ => true

def orderlyCheck (c : Crypto) (j : Json) : List Event → State → Bool
  | [], _ => true
  | e :: es, s => savesInOrder s e && orderlyCheck c j es (exec c j e s)

theorem orderly_of_check {es : List Event} (h : orderlyCheck c j es s = true) : Orderly c j es s := by
  induction es generalizing s with
  | nil => trivial
  | cons e es ih =>
    rw [orderlyCheck, Bool.and_eq_true] at h
    refine ⟨?_, ih h.2⟩
    rintro k a rfl ha
    have hcheck : a.body.rescoped = [] ∧ InOrder a s := by
      have hsave := h.1
      rw [savesInOrder, ha, all_some, decide_eq_true_iff] at hsave
      exact hsave
    refine ⟨?_, hcheck.2⟩
    intro scope sealed id row hmem
    rw [hcheck.1] at hmem
    cases hmem

/-- A first phrase, a private and a shared run, and a new phrase proven by the password. -/
def changedPhrase : List Event :=
  [.request "ada" (phraseBody 1 none none) proofInput, .save 0,
    .preparePrivate "photos" 8 (.drawn 3) (Fixed.fill sealSecretLen 4), .prepare "photos" 9 (.drawn 5),
    .request "ada" (phraseBody 2 (some .password) (some false)) proofInput, .save 0]

theorem changedPhrase_keeps : (run toyCrypto toyJson changedPhrase newAccount).replaced.length = 1 ∧
    (run toyCrypto toyJson changedPhrase newAccount).db.readers.keys.length = 1 ∧
    Good toyCrypto (run toyCrypto toyJson changedPhrase newAccount) :=
  ⟨by decide +kernel, by decide +kernel,
    (phrase_saves_keep toyCrypto toyJson).1 _ _ good_newAccount (orderly_of_check (by decide +kernel))⟩

end LibreServ.Phrase
