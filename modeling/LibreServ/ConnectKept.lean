import LibreServ.ConnectLocks

/-! Each step keeps the invariant, if no purge that has removed an object is broken off and no Luna in use is purged. -/

namespace LibreServ.Connect

open List Option Table
open Files (Text)

variable {B : Type} {path : BlobPath}

namespace State

section Safe

variable {hash : B → Text} {s : State B} {luna id : Text}

/-! ### Uploads, deletions and links -/

@[simp] theorem applyLink_stored (db : Db) (luna : Text) (link : Link) : (db.applyLink luna link).stored = db.stored := by
  cases link with
  | nothing => rfl
  | claim device =>
    simp only [Db.applyLink]
    split
    · rfl
    · rfl
  | keep | move device => rfl

@[simp] theorem applyLink_pending (db : Db) (luna : Text) (link : Link) : (db.applyLink luna link).pending = db.pending := by
  cases link with
  | nothing => rfl
  | claim device =>
    simp only [Db.applyLink]
    split
    · rfl
    · rfl
  | keep | move device => rfl

/-- A Luna is linked while nobody removes anything. -/
theorem Safe.applyLink (h : Safe hash s) (hquiet : s.Quiet) (luna : Text) (link : Link) :
    Safe hash (s.setDb (s.db.applyLink luna link)) := by
  have hquiet' : (s.setDb (s.db.applyLink luna link)).Quiet := hquiet
  have hnumbered : (s.setDb (s.db.applyLink luna link)).Numbered := h.numbered
  apply h.quiet_step hquiet hquiet' hnumbered
  · intro l id hthere
    exact hthere
  · intro l id row hrow
    left
    rw [← applyLink_stored s.db luna link]
    exact ⟨row, hrow⟩
  · intro o call backend hop
    exact .inl hop

theorem Safe.endOp (h : Safe hash s) (hquiet : s.Quiet) (o : Nat) : Safe hash (s.endOp o) := by
  apply h.quiet_step hquiet (hquiet.erase o) (h.numbered.erase o)
  · intro luna id hthere
    exact hthere
  · intro luna id row hrow
    exact .inl ⟨row, hrow⟩
  · intro a call backend hop
    left
    exact (get?_erase_some.mp hop).2

/-- What is taken in has the name its bytes give it. -/
theorem hash_of_accepts {len : B → Nat} {env : Env} {luna : Text} {body : B}
    (h : s.accepts hash len env luna path body = true) (id : Text) (hid : path = .pack id) : hash body = id := by
  subst hid
  simp only [accepts, Bool.and_eq_true, decide_eq_true_eq] at h
  exact h.2

theorem Safe.addPut (h : Safe hash s) (hquiet : s.Quiet) (call : PutCall B)
    (hhash : ∀ id, call.path = .pack id → hash call.body = id) : Safe hash (s.addOp (.put call none)) := by
  have hput : (s.setOp s.nextOp (.put call none)).Quiet := hquiet.put (fun hlock => by cases hlock) s.nextOp
  have hquiet' : (s.addOp (.put call none)).Quiet := hput
  apply h.quiet_step hquiet hquiet' (h.numbered.addOp _)
  · intro luna id hthere
    exact hthere
  · intro luna id row hrow
    exact .inl ⟨row, hrow⟩
  · intro a call' backend hop
    have hop' : (s.ops.put s.nextOp (.put call none)).get? a = some (.put call' backend) := hop
    rw [get?_put] at hop'
    split at hop'
    · right
      cases hop'
      exact ⟨hhash, fun hsome => by cases hsome⟩
    · exact .inl hop'

theorem Safe.beginPut (h : Safe hash s) (len : B → Nat) (env : Env) (device luna : Text) (path : BlobPath) (body : B)
    (sigOk : Bool) : Safe hash (s.beginPut hash len env device luna path body sigOk) := by
  unfold State.beginPut
  by_cases hex : s.excluded = true
  · rw [if_pos hex]
    exact h
  rw [if_neg hex]
  have hquiet := quiet_of_not_excluded hex
  cases s.db.authorizeLuna device luna sigOk true with
  | none => exact h
  | some link =>
    have hadd : Safe hash (if s.accepts hash len env luna path body then
        s.addOp (.put ⟨luna, path, body, link⟩ none) else s) := by
      split
      · rename_i hacc
        exact h.addPut hquiet _ (hash_of_accepts hacc)
      · exact h
    dsimp only
    split
    · exact h
    · split
      · exact h.applyLink hquiet luna link
      · exact hadd

theorem Safe.relink (h : Safe hash s) (device luna : Text) (sigOk : Bool) : Safe hash (s.relink device luna sigOk) := by
  unfold State.relink
  by_cases hex : s.excluded = true
  · rw [if_pos hex]
    exact h
  · rw [if_neg hex]
    have hquiet := quiet_of_not_excluded hex
    cases s.db.authorizeLuna device luna sigOk false with
    | none => exact h
    | some link => exact h.applyLink hquiet luna link

/-- The object is there where it was put; an older copy that goes is elsewhere. -/
theorem get?_putObject_self (env : Env) (luna : Text) (path : BlobPath) (body : B) :
    (s.putObject env luna path body).get? (env.preferredBackend, luna, path) = some body := by
  simp only [putObject]
  split
  · split
    · rename_i row _ hne
      rw [get?_erase, if_neg (fun heq => hne (congrArg Prod.fst heq).symm)]
      exact get?_put_self _ _ _
    · exact get?_put_self _ _ _
  · exact get?_put_self _ _ _

theorem get?_putObject_of_ne (env : Env) {luna luna' : Text} {path' : BlobPath} (body : B) (backend : Backend)
    (hne : (luna', path') ≠ (luna, path)) :
    (s.putObject env luna path body).get? (backend, luna', path') = s.objects.get? (backend, luna', path') := by
  have hkey : ∀ b : Backend, (backend, luna', path') ≠ (b, luna, path) := fun b heq => hne (congrArg Prod.snd heq)
  simp only [putObject]
  split
  · split
    · rw [get?_erase, if_neg (hkey _), get?_put_of_ne _ _ (hkey _)]
    · rw [get?_put_of_ne _ _ (hkey _)]
  · rw [get?_put_of_ne _ _ (hkey _)]

theorem There.putObject (h : There hash s luna id) (env : Env) {luna' : Text} {body : B}
    (hhash : ∀ id, path = .pack id → hash body = id) :
    There hash { s with objects := s.putObject env luna' path body } luna id := by
  by_cases hkey : (luna, BlobPath.pack id) = (luna', path)
  · obtain ⟨rfl, rfl⟩ := Prod.mk.inj hkey
    exact ⟨env.preferredBackend, body, get?_putObject_self env luna (.pack id) body, hhash id rfl⟩
  · obtain ⟨backend, bytes, hget, hbytes⟩ := h
    exact ⟨backend, bytes, (get?_putObject_of_ne env body backend hkey).trans hget, hbytes⟩

theorem Safe.storePut (h : Safe hash s) (env : Env) (o : Nat) (goes : Bool) : Safe hash (s.storePut env o goes) := by
  unfold State.storePut
  split
  · rename_i call hop
    have hquiet : s.Quiet := h.locks.quiet_of_shared hop rfl
    obtain ⟨hhash, -⟩ := h.ops o _ hop
    cases goes with
    | false =>
      rw [if_neg (by simp)]
      split
      · exact h.endOp hquiet o
      · exact (h.applyLink hquiet call.luna call.link).endOp hquiet o
    | true =>
      set stored : State B := { s with objects := s.putObject env call.luna call.path call.body }
      have hquiet' : (stored.setOp o (.put call (some env.preferredBackend))).Quiet :=
        Quiet.put hquiet (fun hlock => by cases hlock) o
      have hnumbered : (stored.setOp o (.put call (some env.preferredBackend))).Numbered := Numbered.put h.numbered hop
      apply h.quiet_step hquiet hquiet' hnumbered
      · intro luna id hthere
        exact hthere.putObject env hhash
      · intro luna id row hrow
        exact .inl ⟨row, hrow⟩
      · intro a call' backend hget
        have hget' : (s.ops.put o (.put call (some env.preferredBackend))).get? a = some (.put call' backend) := hget
        rw [get?_put] at hget'
        split at hget'
        · right
          cases hget'
          refine ⟨hhash, fun _ id hid => ⟨env.preferredBackend, call.body, ?_, hhash id hid⟩⟩
          rw [← hid]
          exact get?_putObject_self env call.luna call.path call.body
        · exact .inl hget'
  · exact h

theorem get?_recordBlob_of_ne (db : Db) {luna luna' : Text} {path' : BlobPath} (size : Nat) (backend : Backend)
    (hne : (luna', path') ≠ (luna, path)) :
    (db.recordBlob luna path size backend).stored.get? (luna', path') = db.stored.get? (luna', path') := by
  exact get?_put_of_ne _ _ hne

theorem Safe.commitPut (h : Safe hash s) (len : B → Nat) (o : Nat) : Safe hash (s.commitPut len o) := by
  unfold State.commitPut
  split
  · rename_i call backend hop
    have hquiet : s.Quiet := h.locks.quiet_of_shared hop rfl
    obtain ⟨-, hthere⟩ := h.ops o _ hop
    set db := (s.db.applyLink call.luna call.link).recordBlob call.luna call.path (len call.body) backend with hdb
    have hquiet' : ((s.setDb db).setOp o (.putDone call.luna call.path)).Quiet :=
      Quiet.put hquiet (fun hlock => by cases hlock) o
    have hnumbered : ((s.setDb db).setOp o (.putDone call.luna call.path)).Numbered := Numbered.put h.numbered hop
    apply h.quiet_step hquiet hquiet' hnumbered
    · intro luna id ht
      exact ht
    · intro luna id row hrow
      have hrow' : db.stored.get? (luna, .pack id) = some row := hrow
      by_cases hkey : (luna, BlobPath.pack id) = (call.luna, call.path)
      · obtain ⟨rfl, hid⟩ := Prod.mk.inj hkey
        exact .inr (hthere rfl id hid.symm)
      · left
        rw [get?_recordBlob_of_ne _ _ _ hkey, applyLink_stored] at hrow'
        exact ⟨row, hrow'⟩
    · intro a call' backend' hget
      rcases get?_put_some.mp hget with ⟨-, hget'⟩ | ⟨-, hget'⟩
      · cases hget'
      · exact .inl hget'
  · exact h

theorem removeStored_stored (db : Db) (now : Int) (backend : Backend) (luna : Text) (path : BlobPath) :
    (db.removeStored now backend luna path).stored = db.stored := by
  unfold Db.removeStored
  split
  · rfl
  · rfl

theorem Safe.delete (h : Safe hash s) (env : Env) (device luna : Text) (path : BlobPath) (sigOk : Bool) :
    Safe hash (s.delete env device luna path sigOk) := by
  unfold State.delete
  by_cases hex : s.excluded = true
  · rw [if_pos hex]
    exact h
  rw [if_neg hex]
  have hquiet := quiet_of_not_excluded hex
  cases s.db.authorizeLuna device luna sigOk false with
  | none => exact h
  | some link =>
    dsimp only
    split
    · exact h.applyLink hquiet luna link
    rename_i row _
    set db := ({ s.db.applyLink luna link with
      stored := (s.db.applyLink luna link).stored.erase (luna, path) } : Db).removeStored env.now row.backend luna path
      with hdb
    set s' : State B := { s.setDb db with deletedAt := s.deletedAt.put (luna, path) env.now } with hs'
    have hquiet' : s'.Quiet := hquiet
    have hnumbered : s'.Numbered := h.numbered
    apply h.quiet_step hquiet hquiet' hnumbered
    · intro l id ht
      exact ht
    · intro l id row' hrow
      have hrow' : db.stored.get? (l, .pack id) = some row' := hrow
      rw [removeStored_stored, get?_erase, applyLink_stored] at hrow'
      split at hrow'
      · cases hrow'
      · exact .inl ⟨row', hrow'⟩
    · intro o call backend hop
      exact .inl hop

/-! ### Removing -/

section

variable (h : Safe hash s)

include h

theorem Safe.cancelRemoval (o : Nat) : Safe hash (s.cancelRemoval o) := by
  unfold State.cancelRemoval
  split
  · rename_i hop
    exact h.ends hop (fun purged rest heq => by cases heq) ⟨rfl, rfl⟩ rfl rfl rfl
  · exact h

theorem Safe.unbindDevice (now : Int) (device : Text) :
    Safe hash (s.setDb (s.db.unbindDevice now device)) := by
  have hlocks : (s.setDb (s.db.unbindDevice now device)).Locks := h.locks
  have hnumbered : (s.setDb (s.db.unbindDevice now device)).Numbered := h.numbered
  apply h.frame hlocks hnumbered rfl rfl
  · intro luna lr' hlr' hzero
    have hget : (s.db.unbindDevice now device).lunas.get? luna = some lr' := hlr'
    rw [Db.unbindDevice, get?_update, map_eq_some_iff] at hget
    obtain ⟨lr, hlr, hnew⟩ := hget
    refine ⟨lr, hlr, ?_⟩
    split at hnew
    · rename_i hdue
      exact hdue.2
    · rw [hnew]
      exact hzero
  · intro o op hop
    exact .inl hop
  · intro o purged rest hop
    exact hop

theorem Safe.passBegin (env : Env) : Safe hash (s.passBegin env) := by
  have hput : Locks { s with ops := s.ops.put s.nextOp (.pass (s.due env.now) none) } := h.locks.put_of_none rfl
  have hlocks : (s.passBegin env).Locks := hput
  apply h.frame hlocks (h.numbered.addOp _) rfl rfl
  · intro luna lr hlr hzero
    exact ⟨lr, hlr, hzero⟩
  · intro a opa ha
    rcases get?_put_some.mp ha with ⟨-, rfl⟩ | ⟨-, ha'⟩
    · exact .inr (OpOk.of_unlocked rfl)
    · exact .inl ha'
  · intro a purged rest ha
    have hne : a ≠ s.nextOp := Nat.ne_of_lt (h.numbered a _ ha)
    exact (get?_put_of_ne _ _ hne).trans ha

theorem Safe.passLock (o : Nat) : Safe hash (s.passLock o) := by
  unfold State.passLock
  split
  · rename_i hop
    exact h.ends hop (fun purged rest heq => by cases heq) ⟨rfl, rfl⟩ rfl rfl rfl
  · rename_i item rest hop
    have hnot : ∀ purged blobs, (Op.pass (item :: rest) none : Op B) ≠ .purge purged blobs true :=
      fun purged blobs heq => by cases heq
    by_cases hlocked : s.locked = true
    · rw [if_pos hlocked]
      exact h
    rw [if_neg hlocked]
    cases hrow : s.db.stored.get? (item.luna, item.path) with
    | some row =>
      have hput : Locks { s with ops := s.ops.put o (.pass rest none) } := h.locks.put_of_none rfl
      exact h.goOn hop hnot ⟨rfl, rfl⟩ rfl rfl rfl hput (OpOk.of_unlocked rfl)
    | none =>
      have hput : Locks { s with ops := s.ops.put o (.pass rest (some (item, false))) } :=
        h.locks.put_of_free fun b opb hb _ => .inl (not_locked hlocked hb)
      have hok : OpOk hash (s.setOp o (.pass rest (some (item, false)))) (.pass rest (some (item, false))) := by
        intro item' gone heq
        cases heq
        exact hrow
      exact h.goOn hop hnot ⟨rfl, rfl⟩ rfl rfl rfl hput hok
  · exact h

theorem Safe.passRemove (env : Env) (o : Nat) (goes : Bool) : Safe hash (s.passRemove env o goes) := by
  unfold State.passRemove
  split
  · rename_i rest item hop
    cases goes with
    | false =>
      have hput : Locks { s with ops := s.ops.put o (.pass rest none) } := h.locks.put_of_none rfl
      exact h.goOn hop (fun purged blobs heq => by cases heq) ⟨rfl, rfl⟩ rfl rfl rfl hput (OpOk.of_unlocked rfl)
    | true =>
      set s' := State.setOp _ o (.pass rest (some (item, true))) with hs'
      have hput : Locks { s with ops := s.ops.put o (.pass rest (some (item, true))) } :=
        h.locks.put_of_weaker hop (fun _ => rfl) fun hnone => by cases hnone
      have hlocks : s'.Locks := hput
      have hnumbered : s'.Numbered := Numbered.put h.numbered hop
      have hfree : s.db.stored.get? (item.luna, item.path) = none := h.ops o _ hop item false rfl
      apply h.alone hop rfl hlocks hnumbered
      · intro a opa ha hao
        exact (get?_put_of_ne _ _ hao).symm.trans ha
      · intro op' hself
        have hself' : some (Op.pass rest (some (item, true))) = some op' := (get?_put_self _ _ _).symm.trans hself
        obtain rfl := some.inj hself'
        intro item' gone heq
        cases heq
        exact hfree
      · intro luna id row hrow
        left
        have hrow' : s.db.stored.get? (luna, .pack id) = some row := hrow
        have hthere : There hash s luna id := h.there_of_alone hop rfl (fun purged blobs heq => by cases heq) hrow'
        have hne : (item.luna, item.path) ≠ (luna, BlobPath.pack id) := by
          intro heq
          rw [heq, hrow'] at hfree
          cases hfree
        exact hthere.erase hne
  · exact h

theorem Safe.passForget (o : Nat) : Safe hash (s.passForget o) := by
  unfold State.passForget
  split
  · rename_i rest item hop
    have hput : Locks { s with ops := s.ops.put o (.pass rest none) } := h.locks.put_of_none rfl
    exact h.goOn hop (fun purged blobs heq => by cases heq) ⟨rfl, rfl⟩ rfl rfl rfl hput (OpOk.of_unlocked rfl)
  · exact h

end

theorem covers_of_mem_blobs {purged : Option Text} {item : Item} (h : item ∈ s.blobs purged) :
    covers purged item.luna = true := by
  simp only [blobs, mem_append, List.mem_map, mem_filter] at h
  rcases h with (⟨⟨k, row⟩, ⟨hrow, -⟩, rfl⟩ | ⟨⟨k, row⟩, hrow, rfl⟩) | ⟨⟨k, row⟩, ⟨hrow, -⟩, rfl⟩
  · exact (mem_select.mp hrow).2
  · exact (mem_select.mp hrow).2
  · exact (mem_select.mp hrow).2

/-- No Luna in use is purged. -/
def SparesLunas (s : State B) (purged : Option Text) : Prop :=
  ∀ luna id row lr, covers purged luna = true → s.db.stored.get? (luna, .pack id) = some row →
    s.db.lunas.get? luna = some lr → lr.purgeAfter ≠ 0

/-- Only a Luna that is due is claimed. -/
theorem sparesLunas_of_claims {now : Int} (h : s.claims now luna = true) : s.SparesLunas (some luna) := by
  intro l id row lr hcov hrow hlr hzero
  obtain rfl : luna = l := by
    simpa [covers] using hcov
  simp only [claims, hlr] at h
  simp [hzero] at h

variable (h : Safe hash s)

include h

theorem Safe.purgeBegin (env : Env) (purged : Option Text)
    (hspares : purged = none → s.SparesLunas none) : Safe hash (s.purgeBegin env purged) := by
  unfold State.purgeBegin
  by_cases hlocked : s.locked = true
  · rw [if_pos hlocked]
    exact h
  rw [if_neg hlocked]
  split
  · rename_i hclaims
    have hlocks : (s.addOp (.purge purged (s.blobs purged) false)).Locks :=
      h.locks.addOp fun b opb hb => .inl (not_locked hlocked hb)
    apply h.frame hlocks (h.numbered.addOp _) rfl rfl
    · intro luna lr hlr hzero
      exact ⟨lr, hlr, hzero⟩
    · intro a opa ha
      rcases get?_put_some.mp ha with ⟨-, rfl⟩ | ⟨-, ha'⟩
      · refine .inr ⟨fun item hitem => covers_of_mem_blobs hitem, ?_⟩
        cases purged with
        | none => exact hspares rfl
        | some luna => exact sparesLunas_of_claims hclaims
      · exact .inl ha'
    · intro a purged' rest ha
      have hne : a ≠ s.nextOp := Nat.ne_of_lt (h.numbered a _ ha)
      exact (get?_put_of_ne _ _ hne).trans ha
  · exact h

theorem Safe.purgeRemove (o : Nat) (goes : Bool)
    (hunbroken : goes = false → ∀ purged rest, s.ops.get? o ≠ some (.purge purged rest true)) :
    Safe hash (s.purgeRemove o goes) := by
  unfold State.purgeRemove
  split
  · rename_i purged item rest started hop
    cases goes with
    | false =>
      refine h.ends hop ?_ ⟨rfl, rfl⟩ rfl rfl rfl
      intro purged' rest' heq
      rw [heq] at hop
      exact hunbroken rfl purged' rest' hop
    | true =>
      obtain ⟨hitems, hspares⟩ := h.ops o _ hop
      set s' := State.setOp _ o (.purge purged rest true) with hs'
      have hput : Locks { s with ops := s.ops.put o (.purge purged rest true) } :=
        h.locks.put_of_weaker hop (fun _ => rfl) fun hnone => by cases hnone
      have hlocks : s'.Locks := hput
      have hnumbered : s'.Numbered := Numbered.put h.numbered hop
      have hself : s'.ops.get? o = some (.purge purged rest true) := get?_put_self _ _ _
      apply h.alone hop rfl hlocks hnumbered
      · intro a opa ha hao
        exact (get?_put_of_ne _ _ hao).symm.trans ha
      · intro op' hop'
        obtain rfl := some.inj (hself.symm.trans hop')
        exact ⟨fun item' hitem' => hitems item' (mem_cons_of_mem _ hitem'), hspares⟩
      · intro luna id row hrow
        by_cases hcov : covers purged luna = true
        · exact .inr ⟨o, purged, rest, hself, hcov⟩
        left
        have hnot : ∀ purged' blobs, Op.purge purged (item :: rest) started = (.purge purged' blobs true : Op B) →
            covers purged' luna = false := by
          intro purged' blobs heq
          cases heq
          exact Bool.not_eq_true _ ▸ hcov
        have hthere : There hash s luna id := h.there_of_alone hop rfl hnot hrow
        have hne : (item.luna, item.path) ≠ (luna, BlobPath.pack id) := by
          intro heq
          apply hcov
          have hluna : item.luna = luna := congrArg Prod.fst heq
          rw [← hluna]
          exact hitems item mem_cons_self
        exact hthere.erase hne
  · exact h

theorem Safe.purgeCommit (o : Nat) : Safe hash (s.purgeCommit o) := by
  unfold State.purgeCommit
  split
  · rename_i purged started hop
    set s' := State.endOp _ o with hs'
    have hlocks : s'.Locks := h.locks.erase o
    have hnumbered : s'.Numbered := h.numbered.erase o
    have hgone : s'.ops.get? o = none := by
      show (s.ops.erase o).get? o = none
      rw [get?_erase, if_pos rfl]
    apply h.alone hop rfl hlocks hnumbered
    · intro a opa ha hao
      have ha' : (s.ops.erase o).get? a = some opa := ha
      rw [get?_erase, if_neg hao] at ha'
      exact ha'
    · intro op' hop'
      rw [hgone] at hop'
      cases hop'
    · intro luna id row hrow
      left
      have hrow' : (s.db.stored.keep fun k _ => !covers purged k.1).get? (luna, .pack id) = some row := hrow
      obtain ⟨hold, hcov⟩ := get?_keep_some.mp hrow'
      have hthere : There hash s luna id := by
        apply h.there_of_alone hop rfl _ hold
        intro purged' blobs heq
        cases heq
        simpa using hcov
      exact hthere
  · exact h

theorem Safe.crash (hunbroken : ∀ o purged rest, s.ops.get? o ≠ some (.purge purged rest true)) :
    Safe hash s.crash := by
  have hnone : ∀ o op, s.crash.ops.get? o ≠ some op := fun o op hop => by cases hop
  apply Safe.of_quiet
  · intro o op hop
    exact absurd hop (hnone o op)
  · intro o op hop
    exact absurd hop (hnone o op)
  · intro luna id row hrow
    rcases h.listed luna id row hrow with hthere | ⟨o, purged, rest, hop, -⟩
    · exact hthere
    · exact absurd hop (hunbroken o purged rest)
  · intro o call backend hop
    exact absurd hop (hnone o _)

end Safe

end State

end LibreServ.Connect
