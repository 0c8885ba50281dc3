import LibreServ.ConnectKept

/-! What an account stores against its cap, when several uploads are under way. An upload is measured against the rows
that are committed when it begins, and its own row comes much later. -/

namespace LibreServ.Connect

open List Table State
open Files (Text)

variable {B : Type}

namespace State

section Quota

variable (len : B → Nat) (s : State B)

/-- What the row of a path says it takes. -/
def rowSize (key : Text × BlobPath) : Nat := ((s.db.stored.get? key).map BlobRow.size).getD 0

/-- The uploads under way, with what they will take. -/
def uploads : List ((Text × BlobPath) × Nat) :=
  s.ops.rows.filterMap fun r => match r.2 with
    | .put call _ => some ((call.luna, call.path), len call.body)
    | _ => none

/-- The most a path may take once the uploads under way are committed. -/
def mayTake (key : Text × BlobPath) : Nat :=
  ((s.uploads len).filter fun u => u.1 = key).foldr (fun u most => max u.2 most) (s.rowSize key)

/-- The paths that have a row or an upload. -/
def touched : Finset (Text × BlobPath) := (s.db.stored.keys ++ (s.uploads len).map Prod.fst).toFinset

/-- The most the account may take once the uploads under way are committed, one more among them. -/
def mayTakeWith (key : Text × BlobPath) (size : Nat) : Nat :=
  ∑ k ∈ insert key (s.touched len), if k = key then max size (s.mayTake len k) else s.mayTake len k

def mayTakeAll : Nat := ∑ k ∈ s.touched len, s.mayTake len k

/-- `PutPack` or `PutRecord` goes on to the store. -/
def admits (hash : B → Text) (env : Env) (device luna : Text) (path : BlobPath) (body : B) (sigOk : Bool) : Bool :=
  let isThere := match path with
    | .pack _ => (s.db.stored.get? (luna, path)).isSome
    | .record _ _ => false
  !s.excluded && (s.db.authorizeLuna device luna sigOk true).isSome && env.backupUnlocked && !isThere &&
    s.accepts hash len env luna path body

/-- An upload that is let in has room beside the others under way. -/
def HasRoom (hash : B → Text) (env : Env) : Action B → Prop
  | .put device luna path body sigOk =>
    s.admits len hash env device luna path body sigOk = true →
      (s.mayTakeWith len (luna, path) (len body) : Int) ≤ env.accountBackupCap
  | _ => True

/-- The cap is the same all along and every upload that is let in has room. -/
def RunHasRoom (hash : B → Text) (cap : Int) : List (Env × Action B) → State B → Prop
  | [], _ => True
  | (env, a) :: rest, s =>
    env.accountBackupCap = cap ∧ s.HasRoom len hash env a ∧ RunHasRoom hash cap rest (s.step hash len env a)

/-- Uploads come one after the other, under one cap. -/
def RunAlone (hash : B → Text) (cap : Int) : List (Env × Action B) → State B → Prop
  | [], _ => True
  | (env, a) :: rest, s =>
    env.accountBackupCap = cap ∧ (match a with | .put _ _ _ _ _ => s.uploads len = [] | _ => True) ∧
      RunAlone hash cap rest (s.step hash len env a)

end Quota

section Sums

variable {len : B → Nat} {s s' : State B} {key : Text × BlobPath} {n : Nat}

theorem mem_uploads {size : Nat} : (key, size) ∈ s.uploads len ↔
    ∃ o call backend, s.ops.get? o = some (.put call backend) ∧ key = (call.luna, call.path) ∧ size = len call.body := by
  unfold uploads
  rw [mem_filterMap]
  constructor
  · rintro ⟨⟨o, op⟩, hmem, hop⟩
    cases op with
    | put call backend =>
      cases hop
      exact ⟨o, call, backend, mem_rows.mp hmem, rfl, rfl⟩
    | putDone _ _ | pass _ _ | purge _ _ _ => cases hop
  · rintro ⟨o, call, backend, hget, rfl, rfl⟩
    exact ⟨(o, .put call backend), mem_rows.mpr hget, rfl⟩

theorem no_put (h : s.uploads len = []) (o : Nat) (call : PutCall B) (backend : Option Backend) :
    s.ops.get? o ≠ some (.put call backend) := by
  intro hop
  have hmem : ((call.luna, call.path), len call.body) ∈ s.uploads len := mem_uploads.mpr ⟨o, call, backend, hop, rfl, rfl⟩
  rw [h] at hmem
  cases hmem

private theorem foldr_max_le {us : List ((Text × BlobPath) × Nat)} {row : Nat} :
    us.foldr (fun u most => max u.2 most) row ≤ n ↔ row ≤ n ∧ ∀ u ∈ us, u.2 ≤ n := by
  induction us with
  | nil => simp
  | cons u us ih =>
    rw [foldr_cons, max_le_iff, ih]
    constructor
    · rintro ⟨hu, hrow, hus⟩
      exact ⟨hrow, forall_mem_cons.mpr ⟨hu, hus⟩⟩
    · rintro ⟨hrow, hall⟩
      obtain ⟨hu, hus⟩ := forall_mem_cons.mp hall
      exact ⟨hu, hrow, hus⟩

/-- A bound on what a path may take bounds its row and each upload. -/
theorem mayTake_le : s.mayTake len key ≤ n ↔
    s.rowSize key ≤ n ∧ ∀ o call backend, s.ops.get? o = some (.put call backend) → (call.luna, call.path) = key →
      len call.body ≤ n := by
  unfold mayTake
  rw [foldr_max_le]
  constructor
  · rintro ⟨hrow, hall⟩
    refine ⟨hrow, fun o call backend hop hkey => ?_⟩
    have hmem : ((call.luna, call.path), len call.body) ∈ s.uploads len := mem_uploads.mpr ⟨o, call, backend, hop, rfl, rfl⟩
    exact hall _ (mem_filter.mpr ⟨hmem, decide_eq_true hkey⟩)
  · rintro ⟨hrow, hall⟩
    refine ⟨hrow, fun u hu => ?_⟩
    obtain ⟨hmem, hkey⟩ := mem_filter.mp hu
    obtain ⟨o, call, backend, hop, hu1, hu2⟩ := mem_uploads.mp hmem
    rw [hu2]
    exact hall o call backend hop (hu1.symm.trans (of_decide_eq_true hkey))

theorem rowSize_le : s.rowSize key ≤ s.mayTake len key := (mayTake_le.mp le_rfl).1

theorem upload_le {o : Nat} {call : PutCall B} {backend : Option Backend}
    (hop : s.ops.get? o = some (.put call backend)) : len call.body ≤ s.mayTake len (call.luna, call.path) :=
  (mayTake_le.mp le_rfl).2 o call backend hop rfl

theorem mem_touched_of_ne_zero (h : s.mayTake len key ≠ 0) : key ∈ s.touched len := by
  by_contra hnot
  apply h
  rw [touched, mem_toFinset, mem_append] at hnot
  have hrow : s.rowSize key = 0 := by
    unfold rowSize
    rw [get?_eq_none fun hk => hnot (.inl hk)]
    rfl
  have hle : s.mayTake len key ≤ 0 := by
    refine mayTake_le.mpr ⟨hrow.le, fun o call backend hop hkey => ?_⟩
    exfalso
    apply hnot
    right
    exact mem_map.mpr ⟨(key, len call.body), mem_uploads.mpr ⟨o, call, backend, hop, hkey.symm, rfl⟩, rfl⟩
  exact Nat.le_zero.mp hle

/-- A step by which no path may take more. -/
theorem mayTakeAll_mono (h : ∀ k, s'.mayTake len k ≤ s.mayTake len k) : s'.mayTakeAll len ≤ s.mayTakeAll len := by
  calc s'.mayTakeAll len ≤ ∑ k ∈ s'.touched len, s.mayTake len k := Finset.sum_le_sum fun k _ => h k
    _ ≤ s.mayTakeAll len := Finset.sum_le_sum_of_ne_zero fun k _ hne => mem_touched_of_ne_zero hne

theorem mayTakeAll_le_with (h : ∀ k, s'.mayTake len k ≤ if k = key then max n (s.mayTake len k) else s.mayTake len k) :
    s'.mayTakeAll len ≤ s.mayTakeWith len key n := by
  calc s'.mayTakeAll len ≤ ∑ k ∈ s'.touched len, if k = key then max n (s.mayTake len k) else s.mayTake len k :=
        Finset.sum_le_sum fun k _ => h k
    _ ≤ s.mayTakeWith len key n := by
        apply Finset.sum_le_sum_of_ne_zero
        intro k _ hne
        rw [Finset.mem_insert]
        by_cases hk : k = key
        · exact .inl hk
        · rw [if_neg hk] at hne
          exact .inr (mem_touched_of_ne_zero hne)

theorem storageUsed_eq : s.db.storageUsed = (∑ k ∈ s.db.stored.keys.toFinset, s.rowSize k : Nat) := by
  have hmap : (s.db.stored.rows.map fun r => r.2.size) = s.db.stored.keys.map s.rowSize := by
    rw [Table.keys, map_map]
    apply map_congr_left
    intro r hr
    have hget : s.db.stored.get? r.1 = some r.2 := mem_rows.mp hr
    show r.2.size = s.rowSize r.1
    unfold rowSize
    rw [hget]
    rfl
  have hnodup : s.db.stored.keys.Nodup := s.db.stored.nodup
  unfold Db.storageUsed
  rw [hmap, sum_toFinset _ hnodup]

theorem storageUsed_le : s.db.storageUsed ≤ s.mayTakeAll len := by
  rw [storageUsed_eq]
  have hle : ∑ k ∈ s.db.stored.keys.toFinset, s.rowSize k ≤ s.mayTakeAll len := by
    calc ∑ k ∈ s.db.stored.keys.toFinset, s.rowSize k ≤ ∑ k ∈ s.db.stored.keys.toFinset, s.mayTake len k :=
          Finset.sum_le_sum fun k _ => rowSize_le
      _ ≤ s.mayTakeAll len := Finset.sum_le_sum_of_ne_zero fun k _ hne => mem_touched_of_ne_zero hne
  exact_mod_cast hle

/-- With no upload under way it is what the rows take. -/
theorem mayTakeAll_of_no_upload (h : ∀ o call backend, s.ops.get? o ≠ some (.put call backend)) :
    (s.mayTakeAll len : Int) = s.db.storageUsed := by
  apply le_antisymm
  · rw [storageUsed_eq]
    have hle : s.mayTakeAll len ≤ ∑ k ∈ s.db.stored.keys.toFinset, s.rowSize k := by
      have hrow : ∀ k, s.mayTake len k ≤ s.rowSize k := fun k =>
        mayTake_le.mpr ⟨le_rfl, fun o call backend hop => absurd hop (h o call backend)⟩
      calc s.mayTakeAll len ≤ ∑ k ∈ s.touched len, s.rowSize k := Finset.sum_le_sum fun k _ => hrow k
        _ ≤ ∑ k ∈ s.db.stored.keys.toFinset, s.rowSize k := by
            apply Finset.sum_le_sum_of_ne_zero
            intro k _ hne
            rw [mem_toFinset]
            by_contra hnot
            apply hne
            unfold rowSize
            rw [get?_eq_none hnot]
            rfl
    exact_mod_cast hle
  · exact storageUsed_le

end Sums

/-! ### Every step but an upload's first -/

/-- No row and no upload is larger than before. -/
structure Leaner (len : B → Nat) (s s' : State B) : Prop where
  rows : ∀ key, s'.rowSize key ≤ s.mayTake len key
  puts : ∀ o call backend, s'.ops.get? o = some (.put call backend) →
    ∃ o' backend', s.ops.get? o' = some (.put call backend')

namespace Leaner

variable {len : B → Nat} {s s' s'' : State B} {o : Nat} {op : Op B}

theorem mayTake (h : Leaner len s s') (key : Text × BlobPath) : s'.mayTake len key ≤ s.mayTake len key := by
  refine mayTake_le.mpr ⟨h.rows key, fun o call backend hop hkey => ?_⟩
  obtain ⟨o', backend', hop'⟩ := h.puts o call backend hop
  rw [← hkey]
  exact upload_le hop'

theorem rows_of_same (h : s'.db.stored = s.db.stored) (key : Text × BlobPath) : s'.rowSize key ≤ s.mayTake len key := by
  unfold rowSize
  rw [h]
  exact rowSize_le

theorem of_same (hstored : s'.db.stored = s.db.stored) (hops : s'.ops = s.ops) : Leaner len s s' where
  rows := rows_of_same hstored
  puts := by
    intro o call backend hop
    rw [hops] at hop
    exact ⟨o, backend, hop⟩

theorem refl (s : State B) : Leaner len s s := of_same rfl rfl

theorem trans (h : Leaner len s s') (h' : Leaner len s' s'') : Leaner len s s'' where
  rows := fun key => (h'.rows key).trans (h.mayTake key)
  puts := by
    intro o call backend hop
    obtain ⟨o', backend', hop'⟩ := h'.puts o call backend hop
    exact h.puts o' call backend' hop'

/-- The rows are as they were, or fewer. -/
theorem setDb (s : State B) {db : Db} (h : ∀ key row, db.stored.get? key = some row → s.db.stored.get? key = some row) :
    Leaner len s (s.setDb db) where
  rows := by
    intro key
    have hle : (s.setDb db).rowSize key ≤ s.rowSize key := by
      show ((db.stored.get? key).map BlobRow.size).getD 0 ≤ _
      cases hrow : db.stored.get? key with
      | none => exact Nat.zero_le _
      | some row =>
        unfold rowSize
        rw [h key row hrow]
    exact hle.trans rowSize_le
  puts := fun o _ backend hop => ⟨o, backend, hop⟩

theorem applyLink (s : State B) (luna : Text) (link : Link) : Leaner len s (s.setDb (s.db.applyLink luna link)) := by
  apply setDb
  intro key row hrow
  rwa [applyLink_stored] at hrow

theorem setObjects (s : State B) (objects : Table (Backend × Text × BlobPath) B) :
    Leaner len s { s with objects := objects } :=
  of_same rfl rfl

theorem setOp (s : State B) (op' : Op B)
    (h : ∀ call backend, op' = .put call backend → ∃ backend', s.ops.get? o = some (.put call backend')) :
    Leaner len s (s.setOp o op') where
  rows := rows_of_same rfl
  puts := by
    intro o' call backend hop
    have hop' : (s.ops.put o op').get? o' = some (.put call backend) := hop
    rw [get?_put] at hop'
    split at hop'
    · obtain ⟨backend', hb⟩ := h call backend (Option.some.inj hop')
      exact ⟨o, backend', hb⟩
    · exact ⟨o', backend, hop'⟩

theorem addOp (s : State B) (h : ∀ call backend, op ≠ .put call backend) : Leaner len s (s.addOp op) := by
  have hset : Leaner len s (s.setOp s.nextOp op) := setOp s op fun call backend heq => absurd heq (h call backend)
  exact ⟨hset.rows, hset.puts⟩

theorem endOp (s : State B) (o : Nat) : Leaner len s (s.endOp o) where
  rows := rows_of_same rfl
  puts := by
    intro o' call backend hop
    obtain ⟨-, hop'⟩ := get?_erase_some.mp hop
    exact ⟨o', backend, hop'⟩

end Leaner

section Steps

variable {len : B → Nat} {s : State B}

theorem leaner_storePut (s : State B) (env : Env) (o : Nat) (goes : Bool) : Leaner len s (s.storePut env o goes) := by
  unfold storePut
  split
  · rename_i call hop
    split
    · refine (Leaner.setObjects s _).trans (Leaner.setOp _ _ ?_)
      intro call' backend heq
      cases heq
      exact ⟨none, hop⟩
    · split
      · exact Leaner.endOp s o
      · exact (Leaner.applyLink s call.luna call.link).trans (Leaner.endOp _ o)
  · exact Leaner.refl s

/-- The row that is recorded is no larger than the upload, or than the row before it. -/
theorem leaner_commitPut (s : State B) (o : Nat) : Leaner len s (s.commitPut len o) := by
  unfold commitPut
  split
  · rename_i call backend hop
    set db := (s.db.applyLink call.luna call.link).recordBlob call.luna call.path (len call.body) backend with hdb
    have hrecorded : Leaner len s (s.setDb db) := by
      refine ⟨fun key => ?_, fun o call backend hop => ⟨o, backend, hop⟩⟩
      by_cases hkey : key = (call.luna, call.path)
      · subst hkey
        show ((db.stored.get? (call.luna, call.path)).map BlobRow.size).getD 0 ≤ _
        rw [hdb]
        unfold Db.recordBlob
        rw [applyLink_stored, get?_put_self]
        split
        · rename_i old hpath hold
          have hsize : s.rowSize (call.luna, call.path) = old.size := by
            unfold rowSize
            rw [hold]
            rfl
          exact hsize.symm.trans_le rowSize_le
        · exact upload_le hop
      · have hsame : (s.setDb db).rowSize key = s.rowSize key := by
          show ((db.stored.get? key).map BlobRow.size).getD 0 = _
          rw [get?_recordBlob_of_ne _ _ _ hkey, applyLink_stored]
          rfl
        rw [hsame]
        exact rowSize_le
    refine hrecorded.trans (Leaner.setOp _ _ ?_)
    intro call' backend' heq
    cases heq
  · exact Leaner.refl s

theorem leaner_forget (s : State B) (luna : Text) (path : BlobPath) : Leaner len s (s.setDb (s.db.forget luna path)) :=
  Leaner.setDb s fun _ _ hrow => hrow

theorem leaner_cancelRemoval (s : State B) (o : Nat) : Leaner len s (s.cancelRemoval o) := by
  unfold cancelRemoval
  split
  · rename_i luna path hop
    exact (leaner_forget s luna path).trans (Leaner.endOp _ o)
  · exact Leaner.refl s

theorem leaner_delete (s : State B) (env : Env) (device luna : Text) (path : BlobPath) (sigOk : Bool) :
    Leaner len s (s.delete env device luna path sigOk) := by
  unfold delete
  split
  · exact Leaner.refl s
  split
  · exact Leaner.refl s
  rename_i link hlink
  dsimp only
  split
  · exact Leaner.applyLink s luna link
  rename_i row hrow
  set db := { s.db.applyLink luna link with
    stored := (s.db.applyLink luna link).stored.erase (luna, path) }.removeStored env.now row.backend luna path
  have hdb : Leaner len s (s.setDb db) := by
    apply Leaner.setDb
    intro key row' hrow'
    rw [removeStored_stored, get?_erase, applyLink_stored] at hrow'
    split at hrow'
    · cases hrow'
    · exact hrow'
  exact ⟨hdb.rows, hdb.puts⟩

theorem leaner_relink (s : State B) (device luna : Text) (sigOk : Bool) : Leaner len s (s.relink device luna sigOk) := by
  unfold relink
  split
  · exact Leaner.refl s
  · split
    · exact Leaner.refl s
    · exact Leaner.applyLink s luna _

theorem leaner_passLock (s : State B) (o : Nat) : Leaner len s (s.passLock o) := by
  unfold passLock
  split
  · exact Leaner.endOp s o
  · rename_i item rest hop
    split
    · exact Leaner.refl s
    split
    · refine (leaner_forget s item.luna item.path).trans (Leaner.setOp _ _ ?_)
      intro call backend heq
      cases heq
    · apply Leaner.setOp
      intro call backend heq
      cases heq
  · exact Leaner.refl s

theorem leaner_passRemove (s : State B) (env : Env) (o : Nat) (goes : Bool) : Leaner len s (s.passRemove env o goes) := by
  unfold passRemove
  split
  · rename_i rest item hop
    split
    · set removed : State B := { s with
        objects := s.objects.erase (item.backend, item.luna, item.path)
        removals := s.removals ++ [⟨item.luna, item.path, env.now, s.deletedAt.get? (item.luna, item.path)⟩] }
      have hremoved : Leaner len s removed := Leaner.of_same rfl rfl
      refine hremoved.trans (Leaner.setOp removed (.pass rest (some (item, true))) ?_)
      intro call backend heq
      cases heq
    · apply Leaner.setOp
      intro call backend heq
      cases heq
  · exact Leaner.refl s

theorem leaner_passForget (s : State B) (o : Nat) : Leaner len s (s.passForget o) := by
  unfold passForget
  split
  · rename_i rest item hop
    refine (leaner_forget s item.luna item.path).trans (Leaner.setOp _ _ ?_)
    intro call backend heq
    cases heq
  · exact Leaner.refl s

theorem leaner_purgeBegin (s : State B) (env : Env) (purged : Option Text) : Leaner len s (s.purgeBegin env purged) := by
  unfold purgeBegin
  split
  · exact Leaner.refl s
  · split
    · apply Leaner.addOp
      intro call backend heq
      cases heq
    · exact Leaner.refl s

theorem leaner_purgeRemove (s : State B) (o : Nat) (goes : Bool) : Leaner len s (s.purgeRemove o goes) := by
  unfold purgeRemove
  split
  · split
    · refine (Leaner.setObjects s _).trans (Leaner.setOp _ _ ?_)
      intro call backend heq
      cases heq
    · exact Leaner.endOp s o
  · exact Leaner.refl s

theorem leaner_purgeCommit (s : State B) (o : Nat) : Leaner len s (s.purgeCommit o) := by
  unfold purgeCommit
  split
  · rename_i purged started hop
    refine (Leaner.setDb s ?_).trans (Leaner.endOp _ o)
    intro key row hrow
    rw [Table.get?_keep] at hrow
    exact (Option.filter_eq_some_iff.mp hrow).1
  · exact Leaner.refl s

/-! ### An upload's first step, and runs -/

variable {hash : B → Text} {env : Env}

/-- An upload that is not let in changes nothing that counts. -/
theorem beginPut_cases (s : State B) (hash : B → Text) (len : B → Nat) (env : Env) (device luna : Text) (path : BlobPath) (body : B) (sigOk : Bool) :
    Leaner len s (s.beginPut hash len env device luna path body sigOk) ∨
      s.admits len hash env device luna path body sigOk = true ∧
        ∃ link, s.beginPut hash len env device luna path body sigOk = s.addOp (.put ⟨luna, path, body, link⟩ none) := by
  unfold beginPut
  by_cases hex : s.excluded = true
  · rw [if_pos hex]
    exact .inl (Leaner.refl s)
  rw [if_neg hex]
  cases hauth : s.db.authorizeLuna device luna sigOk true with
  | none => exact .inl (Leaner.refl s)
  | some link =>
    by_cases hunlocked : env.backupUnlocked = true
    · have hadd : ∀ hthere : (match path with
            | .pack _ => (s.db.stored.get? (luna, path)).isSome
            | .record _ _ => false) = false,
          Leaner len s (if s.accepts hash len env luna path body = true then
            s.addOp (.put ⟨luna, path, body, link⟩ none) else s) ∨
          s.admits len hash env device luna path body sigOk = true ∧
            ∃ link', (if s.accepts hash len env luna path body = true then
              s.addOp (.put ⟨luna, path, body, link⟩ none) else s) = s.addOp (.put ⟨luna, path, body, link'⟩ none) := by
        intro hthere
        by_cases hacc : s.accepts hash len env luna path body = true
        · rw [if_pos hacc]
          refine .inr ⟨?_, link, rfl⟩
          simp [admits, hex, hauth, hunlocked, hthere, hacc]
        · rw [if_neg hacc]
          exact .inl (Leaner.refl s)
      simp only [hunlocked, not_true_eq_false]
      cases path with
      | record kind name => exact hadd rfl
      | pack id =>
        cases hrow : s.db.stored.get? (luna, .pack id) with
        | none => exact hadd (by rw [hrow]; rfl)
        | some row => exact .inl (Leaner.applyLink s luna link)
    · simp only [hunlocked]
      exact .inl (Leaner.refl s)

theorem mayTakeAll_addPut (s : State B) (call : PutCall B) :
    (s.addOp (.put call none)).mayTakeAll len ≤ s.mayTakeWith len (call.luna, call.path) (len call.body) := by
  apply mayTakeAll_le_with
  intro key
  have hrow : (s.addOp (.put call none)).rowSize key ≤ s.mayTake len key := Leaner.rows_of_same (s := s) rfl key
  have hold : ∀ o call' backend, (s.addOp (.put call none)).ops.get? o = some (.put call' backend) →
      call' = call ∨ s.ops.get? o = some (.put call' backend) := by
    intro o call' backend hop
    have hop' : (s.ops.put s.nextOp (.put call none)).get? o = some (.put call' backend) := hop
    rw [get?_put] at hop'
    split at hop'
    · cases hop'
      exact .inl rfl
    · exact .inr hop'
  by_cases hkey : key = (call.luna, call.path)
  · rw [if_pos hkey]
    refine mayTake_le.mpr ⟨hrow.trans (le_max_right _ _), fun o call' backend hop hkey' => ?_⟩
    rcases hold o call' backend hop with rfl | hop'
    · exact le_max_left _ _
    · exact ((mayTake_le.mp le_rfl).2 o call' backend hop' hkey').trans (le_max_right _ _)
  · rw [if_neg hkey]
    refine mayTake_le.mpr ⟨hrow, fun o call' backend hop hkey' => ?_⟩
    rcases hold o call' backend hop with rfl | hop'
    · exact absurd hkey'.symm hkey
    · exact (mayTake_le.mp le_rfl).2 o call' backend hop' hkey'

theorem mayTakeAll_step {a : Action B} (h : (s.mayTakeAll len : Int) ≤ env.accountBackupCap)
    (hroom : s.HasRoom len hash env a) : ((s.step hash len env a).mayTakeAll len : Int) ≤ env.accountBackupCap := by
  have hlean : ∀ s' : State B, Leaner len s s' → (s'.mayTakeAll len : Int) ≤ env.accountBackupCap := by
    intro s' hs'
    have hle := mayTakeAll_mono hs'.mayTake
    omega
  show ((s.act hash len env a).mayTakeAll len : Int) ≤ env.accountBackupCap
  cases a with
  | put device luna path body sigOk =>
    rcases beginPut_cases s hash len env device luna path body sigOk with hs' | ⟨hadmits, link, heq⟩
    · exact hlean _ hs'
    have hle : (s.addOp (.put ⟨luna, path, body, link⟩ none)).mayTakeAll len ≤
        s.mayTakeWith len (luna, path) (len body) := mayTakeAll_addPut s ⟨luna, path, body, link⟩
    have hwith := hroom hadmits
    show ((s.beginPut hash len env device luna path body sigOk).mayTakeAll len : Int) ≤ _
    rw [heq]
    omega
  | storePut o goes => exact hlean _ (leaner_storePut s env o goes)
  | commitPut o => exact hlean _ (leaner_commitPut s o)
  | cancelRemoval o => exact hlean _ (leaner_cancelRemoval s o)
  | delete device luna path sigOk => exact hlean _ (leaner_delete s env device luna path sigOk)
  | relink device luna sigOk => exact hlean _ (leaner_relink s device luna sigOk)
  | unbindDevice device => exact hlean _ (Leaner.of_same rfl rfl)
  | passBegin =>
    apply hlean
    apply Leaner.addOp
    intro call backend heq
    cases heq
  | passLock o => exact hlean _ (leaner_passLock s o)
  | passRemove o goes => exact hlean _ (leaner_passRemove s env o goes)
  | passForget o => exact hlean _ (leaner_passForget s o)
  | purgeBegin luna => exact hlean _ (leaner_purgeBegin s env luna)
  | purgeRemove o goes => exact hlean _ (leaner_purgeRemove s o goes)
  | purgeCommit o => exact hlean _ (leaner_purgeCommit s o)
  | crash =>
    apply hlean
    refine ⟨Leaner.rows_of_same rfl, fun o call backend hop => ?_⟩
    cases hop

theorem mayTakeAll_run {cap : Int} {steps : List (Env × Action B)} (h : (s.mayTakeAll len : Int) ≤ cap)
    (hroom : RunHasRoom len hash cap steps s) : ((run hash len steps s).mayTakeAll len : Int) ≤ cap := by
  induction steps generalizing s with
  | nil => exact h
  | cons head rest ih =>
    obtain ⟨env, a⟩ := head
    obtain ⟨hcap, ha, hrest⟩ := hroom
    subst hcap
    exact ih (mayTakeAll_step h ha) hrest

end Steps

/-- From a state with no upload under way, in a run in which every upload that is let in has room beside the others
under way, the account never stores more than its cap. -/
theorem storageUsed_within_cap (hash : B → Text) (len : B → Nat) (cap : Int) (steps : List (Env × Action B))
    (s : State B) (hnone : ∀ o call backend, s.ops.get? o ≠ some (.put call backend)) (hused : s.db.storageUsed ≤ cap)
    (hroom : RunHasRoom len hash cap steps s) : (run hash len steps s).db.storageUsed ≤ cap := by
  have hstart : (s.mayTakeAll len : Int) ≤ cap := (mayTakeAll_of_no_upload hnone).trans_le hused
  exact storageUsed_le.trans (mayTakeAll_run hstart hroom)

/-- One upload at a time needs no more than the check it makes. -/
theorem hasRoom_of_alone (hash : B → Text) (len : B → Nat) (env : Env) (s : State B) (a : Action B)
    (hnone : ∀ o call backend, s.ops.get? o ≠ some (.put call backend))
    (hused : s.db.storageUsed ≤ env.accountBackupCap) : s.HasRoom len hash env a := by
  cases a with
  | put device luna path body sigOk =>
    intro hadmits
    have hrow : ∀ k, s.mayTake len k = s.rowSize k := fun k => le_antisymm
      (mayTake_le.mpr ⟨le_rfl, fun o call backend hop => absurd hop (hnone o call backend)⟩) rowSize_le
    -- both sums are that of the other paths and what this one takes
    have hwith : s.mayTakeWith len (luna, path) (len body) =
        max (len body) (s.rowSize (luna, path)) + ∑ k ∈ (s.touched len).erase (luna, path), s.rowSize k := by
      unfold mayTakeWith
      rw [← Finset.add_sum_erase _ _ (Finset.mem_insert_self _ _), Finset.erase_insert_eq_erase, if_pos rfl, hrow]
      congr 1
      apply Finset.sum_congr rfl
      intro k hk
      rw [if_neg (Finset.ne_of_mem_erase hk), hrow]
    have hsum : s.rowSize (luna, path) + ∑ k ∈ (s.touched len).erase (luna, path), s.rowSize k = s.mayTakeAll len := by
      have hall : s.mayTakeAll len = ∑ k ∈ s.touched len, s.rowSize k := Finset.sum_congr rfl fun k _ => hrow k
      by_cases hmem : (luna, path) ∈ s.touched len
      · rw [hall, Finset.add_sum_erase _ _ hmem]
      · have hzero : s.mayTake len (luna, path) = 0 := by
          by_contra hne
          exact hmem (mem_touched_of_ne_zero hne)
        rw [hrow] at hzero
        rw [hall, hzero, Finset.erase_eq_of_notMem hmem, Nat.zero_add]
    have hstored : (s.mayTakeAll len : Int) = s.db.storageUsed := mayTakeAll_of_no_upload hnone
    have hfits : s.db.storageUsed - s.rowSize (luna, path) + len body ≤ env.accountBackupCap := by
      simp only [admits, accepts] at hadmits
      cases path with
      | pack id =>
        simp only [Bool.and_eq_true, decide_eq_true_eq] at hadmits
        omega
      | record kind name =>
        simp only [Bool.and_eq_true, decide_eq_true_eq] at hadmits
        exact hadmits.2.2
    rw [hwith]
    rcases le_total (len body) (s.rowSize (luna, path)) with hle | hle
    · omega
    · omega
  | storePut o goes | commitPut o | cancelRemoval o | delete device luna path sigOk | relink device luna sigOk
  | unbindDevice device | passBegin | passLock o | passRemove o goes | passForget o | purgeBegin luna
  | purgeRemove o goes | purgeCommit o | crash => trivial

theorem hasRoom_of_runAlone {hash : B → Text} {len : B → Nat} {cap : Int} {steps : List (Env × Action B)} {s : State B}
    (hcap : (s.mayTakeAll len : Int) ≤ cap) (halone : RunAlone len hash cap steps s) : RunHasRoom len hash cap steps s := by
  induction steps generalizing s with
  | nil => trivial
  | cons head rest ih =>
    obtain ⟨env, a⟩ := head
    obtain ⟨rfl, hput, hrest⟩ := halone
    have hroom : s.HasRoom len hash env a := by
      cases a with
      | put device luna path body sigOk =>
        exact hasRoom_of_alone hash len env s _ (no_put hput) (storageUsed_le.trans hcap)
      | _ => trivial
    exact ⟨rfl, hroom, ih (mayTakeAll_step hcap hroom) hrest⟩

/-- An account whose uploads never overlap never stores more than its cap. -/
theorem within_cap_of_alone (hash : B → Text) (len : B → Nat) (cap : Int) (steps : List (Env × Action B)) (s : State B)
    (hnone : s.uploads len = []) (hused : s.db.storageUsed ≤ cap) (halone : RunAlone len hash cap steps s) :
    (run hash len steps s).db.storageUsed ≤ cap := by
  have hstart : (s.mayTakeAll len : Int) ≤ cap := (mayTakeAll_of_no_upload (no_put hnone)).trans_le hused
  exact storageUsed_le.trans (mayTakeAll_run hstart (hasRoom_of_runAlone hstart halone))

/-- A cap of ten bytes. -/
def tenBytes : Env := ⟨0, .server, true, 10⟩

/-- A pack of six bytes, stored, and one of four. -/
def oneAfterTheOther : List (Env × Action Text) :=
  [(tenBytes, .put ['d'] ['l'] (.pack "packed".toList) "packed".toList false), (tenBytes, .storePut 0 true),
    (tenBytes, .commitPut 0), (tenBytes, .put ['d'] ['l'] (.pack "four".toList) "four".toList false),
    (tenBytes, .storePut 1 true), (tenBytes, .commitPut 1)]

theorem storageUsed_within_cap_oneAfterTheOther : (run id length oneAfterTheOther empty).db.storageUsed = 10 ∧
      (run id length oneAfterTheOther empty).db.storageUsed ≤ 10 := by
  refine ⟨by decide +kernel, ?_⟩
  refine storageUsed_within_cap id length 10 _ empty (fun o call backend hop => by cases hop) (by decide) ?_
  exact ⟨rfl, fun _ => by decide +kernel, rfl, trivial, rfl, trivial, rfl, fun _ => by decide +kernel, rfl, trivial, rfl,
    trivial, trivial⟩

theorem within_cap_oneAfterTheOther : (run id length oneAfterTheOther empty).db.storageUsed ≤ 10 :=
  within_cap_of_alone id length 10 _ empty rfl (by decide)
    ⟨rfl, rfl, rfl, trivial, rfl, trivial, rfl, rfl, rfl, trivial, rfl, trivial, trivial⟩

/-- Two packs of six bytes are uploaded at once, and each finds the account empty. -/
def bothAtOnce : List (Env × Action Text) :=
  [(tenBytes, .put ['d'] ['l'] (.pack "packed".toList) "packed".toList false),
    (tenBytes, .put ['d'] ['l'] (.pack "stored".toList) "stored".toList false), (tenBytes, .storePut 0 true),
    (tenBytes, .storePut 1 true), (tenBytes, .commitPut 0), (tenBytes, .commitPut 1)]

theorem storage_over_cap : (run id length bothAtOnce empty).db.storageUsed = 12 ∧
      ¬ ∀ (cap : Int) (steps : List (Env × Action Text)), (∀ step ∈ steps, step.1.accountBackupCap = cap) →
        (empty : State Text).db.storageUsed ≤ cap → (run id length steps empty).db.storageUsed ≤ cap := by
  have htwelve : (run id length bothAtOnce empty).db.storageUsed = 12 := by decide +kernel
  refine ⟨htwelve, fun hall => ?_⟩
  have hle := hall 10 bothAtOnce (by decide +kernel) (by decide)
  omega

end State

end LibreServ.Connect
