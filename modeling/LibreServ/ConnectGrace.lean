import LibreServ.ConnectKept

/-! What Connect lists it has, and what was deleted stays for its grace. Both hold as long as a purge that removed an
object is not broken off, no account is purged with packs of a Luna in use, a path is deleted again only after its
earlier reminder is gone and no pass has it in its list, and the clock does not go back. -/

namespace LibreServ.Connect

open List Table State
open Files (Text)

variable {B : Type} {a : Action B}

/-- The pass will remove this item, or is about to. -/
def Op.Waits (op : Op B) (item : Item) : Prop :=
  match op with
  | .pass due current => item ∈ due ∨ ∃ gone, current = some (item, gone)
  | _ => False

namespace State

/-- Nothing becomes due before its grace is over. -/
structure Grace (now : Int) (s : State B) : Prop where
  reminders : ∀ k p t, s.db.pending.get? k = some p → s.deletedAt.get? k = some t → t + deleteGraceSeconds ≤ p.deleteAfter
  waits : ∀ o op item t, s.ops.get? o = some op → op.Waits item → s.deletedAt.get? (item.luna, item.path) = some t →
    t + deleteGraceSeconds ≤ now
  removals : ∀ r ∈ s.removals, ∀ t, r.deletedAt = some t → t + deleteGraceSeconds ≤ r.time

/-- Reminders and items in hand only go. -/
structure Calmer (s s' : State B) : Prop where
  pending : ∀ k p, s'.db.pending.get? k = some p → s.db.pending.get? k = some p
  deletedAt : s'.deletedAt = s.deletedAt
  removals : s'.removals = s.removals
  waits : ∀ o op' item, s'.ops.get? o = some op' → op'.Waits item → ∃ op, s.ops.get? o = some op ∧ op.Waits item

section Grace

variable {s s' s'' : State B} {o : Nat} {op : Op B} {now : Int}

theorem Grace.later (h : Grace now s) {now' : Int} (hle : now ≤ now') : Grace now' s where
  reminders := h.reminders
  waits := by
    intro o op item t hop hwaits ht
    have hnow := h.waits o op item t hop hwaits ht
    omega
  removals := h.removals

theorem Grace.of_calmer (h : Grace now s) (hc : Calmer s s') : Grace now s' where
  reminders := by
    intro k p t hp ht
    rw [hc.deletedAt] at ht
    exact h.reminders k p t (hc.pending k p hp) ht
  waits := by
    intro o op' item t hop hwaits ht
    rw [hc.deletedAt] at ht
    obtain ⟨op, hop', hwaits'⟩ := hc.waits o op' item hop hwaits
    exact h.waits o op item t hop' hwaits' ht
  removals := by
    rw [hc.removals]
    exact h.removals

theorem Calmer.refl (s : State B) : Calmer s s :=
  ⟨fun _ _ h => h, rfl, rfl, fun _ op _ hop hwaits => ⟨op, hop, hwaits⟩⟩

theorem Calmer.trans (h : Calmer s s') (h' : Calmer s' s'') : Calmer s s'' where
  pending := fun k p hp => h.pending k p (h'.pending k p hp)
  deletedAt := h'.deletedAt.trans h.deletedAt
  removals := h'.removals.trans h.removals
  waits := by
    intro o op'' item hop hwaits
    obtain ⟨op', hop', hwaits'⟩ := h'.waits o op'' item hop hwaits
    exact h.waits o op' item hop' hwaits'

theorem Calmer.setDb (s : State B) {db : Db} (h : ∀ k p, db.pending.get? k = some p → s.db.pending.get? k = some p) :
    Calmer s (s.setDb db) :=
  ⟨h, rfl, rfl, fun _ op _ hop hwaits => ⟨op, hop, hwaits⟩⟩

theorem Calmer.applyLink (s : State B) (luna : Text) (link : Link) : Calmer s (s.setDb (s.db.applyLink luna link)) := by
  apply Calmer.setDb
  intro k p hp
  rw [applyLink_pending] at hp
  exact hp

theorem Calmer.forget (s : State B) (luna : Text) (path : BlobPath) : Calmer s (s.setDb (s.db.forget luna path)) := by
  apply Calmer.setDb
  intro k p hp
  obtain ⟨-, hp⟩ := get?_erase_some.mp hp
  exact hp

theorem Calmer.setObjects (s : State B) (objects : Table (Backend × Text × BlobPath) B) :
    Calmer s { s with objects := objects } :=
  ⟨fun _ _ h => h, rfl, rfl, fun _ op _ hop hwaits => ⟨op, hop, hwaits⟩⟩

theorem Calmer.setOp (s : State B) (hop : s.ops.get? o = some op) (op' : Op B) (h : ∀ item, op'.Waits item → op.Waits item) :
    Calmer s (s.setOp o op') := by
  refine ⟨fun _ _ hp => hp, rfl, rfl, ?_⟩
  intro a opa item ha hwaits
  rcases get?_put_some.mp ha with ⟨hao, rfl⟩ | ⟨-, ha'⟩
  · exact ⟨op, hao ▸ hop, h item hwaits⟩
  · exact ⟨opa, ha', hwaits⟩

theorem Calmer.addOp (s : State B) (h : ∀ item, ¬ op.Waits item) : Calmer s (s.addOp op) := by
  refine ⟨fun _ _ hp => hp, rfl, rfl, ?_⟩
  intro a opa item ha hwaits
  rcases get?_put_some.mp ha with ⟨-, rfl⟩ | ⟨-, ha'⟩
  · exact absurd hwaits (h item)
  · exact ⟨opa, ha', hwaits⟩

theorem Calmer.endOp (s : State B) (o : Nat) : Calmer s (s.endOp o) := by
  refine ⟨fun _ _ hp => hp, rfl, rfl, ?_⟩
  intro a opa item ha hwaits
  obtain ⟨-, ha'⟩ := get?_erase_some.mp ha
  exact ⟨opa, ha', hwaits⟩

/-! ### Steps that delete nothing -/

theorem calmer_beginPut (s : State B) (hash : B → Text) (len : B → Nat) (env : Env) (device luna : Text)
    (path : BlobPath) (body : B) (sigOk : Bool) : Calmer s (s.beginPut hash len env device luna path body sigOk) := by
  unfold beginPut
  split
  · exact Calmer.refl s
  cases s.db.authorizeLuna device luna sigOk true with
  | none => exact Calmer.refl s
  | some link =>
    dsimp only
    split
    · exact Calmer.refl s
    · split
      · exact Calmer.applyLink s luna link
      · split
        · exact Calmer.addOp s fun item hwaits => hwaits
        · exact Calmer.refl s

theorem calmer_storePut (s : State B) (env : Env) (o : Nat) (goes : Bool) : Calmer s (s.storePut env o goes) := by
  unfold storePut
  split
  · rename_i call hop
    split
    · set stored : State B := { s with objects := s.putObject env call.luna call.path call.body }
      refine (Calmer.setObjects s _).trans (Calmer.setOp stored hop _ ?_)
      exact fun item hwaits => hwaits
    · split
      · exact Calmer.endOp s o
      · exact (Calmer.applyLink s call.luna call.link).trans (Calmer.endOp _ o)
  · exact Calmer.refl s

theorem calmer_commitPut (s : State B) (len : B → Nat) (o : Nat) : Calmer s (s.commitPut len o) := by
  unfold commitPut
  split
  · rename_i call backend hop
    set db := (s.db.applyLink call.luna call.link).recordBlob call.luna call.path (len call.body) backend
    have hdb : Calmer s (s.setDb db) := by
      apply Calmer.setDb
      intro k p hp
      rw [← applyLink_pending s.db call.luna call.link]
      exact hp
    refine hdb.trans (Calmer.setOp (s.setDb db) hop (.putDone call.luna call.path) ?_)
    exact fun item hwaits => hwaits.elim
  · exact Calmer.refl s

theorem calmer_cancelRemoval (s : State B) (o : Nat) : Calmer s (s.cancelRemoval o) := by
  unfold cancelRemoval
  split
  · rename_i luna path hop
    exact (Calmer.forget s luna path).trans (Calmer.endOp _ o)
  · exact Calmer.refl s

theorem calmer_relink (s : State B) (device luna : Text) (sigOk : Bool) : Calmer s (s.relink device luna sigOk) := by
  unfold relink
  split
  · exact Calmer.refl s
  · cases s.db.authorizeLuna device luna sigOk false with
    | none => exact Calmer.refl s
    | some link => exact Calmer.applyLink s luna link

theorem calmer_passLock (s : State B) (o : Nat) : Calmer s (s.passLock o) := by
  unfold passLock
  split
  · exact Calmer.endOp s o
  · rename_i item rest hop
    split
    · exact Calmer.refl s
    split
    · refine (Calmer.forget s item.luna item.path).trans
        (Calmer.setOp (s.setDb (s.db.forget item.luna item.path)) hop _ ?_)
      intro item' hwaits
      rcases hwaits with hmem | ⟨gone, heq⟩
      · exact .inl (mem_cons_of_mem _ hmem)
      · cases heq
    · refine Calmer.setOp s hop _ ?_
      intro item' hwaits
      rcases hwaits with hmem | ⟨gone, heq⟩
      · exact .inl (mem_cons_of_mem _ hmem)
      · cases heq
        exact .inl mem_cons_self
  · exact Calmer.refl s

/-- The item in hand is put aside. -/
theorem calmer_putAside {rest : List Item} {current : Option (Item × Bool)} (hop : s.ops.get? o = some (.pass rest current)) :
    Calmer s (s.setOp o (.pass rest none)) := by
  apply Calmer.setOp s hop
  intro item hwaits
  rcases hwaits with hmem | ⟨gone, heq⟩
  · exact .inl hmem
  · cases heq

theorem calmer_passForget (s : State B) (o : Nat) : Calmer s (s.passForget o) := by
  unfold passForget
  split
  · rename_i rest item hop
    exact (Calmer.forget s item.luna item.path).trans (calmer_putAside hop)
  · exact Calmer.refl s

theorem calmer_purgeBegin (s : State B) (env : Env) (purged : Option Text) : Calmer s (s.purgeBegin env purged) := by
  unfold purgeBegin
  split
  · exact Calmer.refl s
  · split
    · exact Calmer.addOp s fun item hwaits => hwaits
    · exact Calmer.refl s

theorem calmer_purgeRemove (s : State B) (o : Nat) (goes : Bool) : Calmer s (s.purgeRemove o goes) := by
  unfold purgeRemove
  split
  · rename_i purged item rest started hop
    split
    · set removed : State B := { s with objects := s.objects.erase (item.backend, item.luna, item.path) }
      refine (Calmer.setObjects s _).trans (Calmer.setOp removed hop _ ?_)
      exact fun item hwaits => hwaits
    · exact Calmer.endOp s o
  · exact Calmer.refl s

theorem calmer_purgeCommit (s : State B) (o : Nat) : Calmer s (s.purgeCommit o) := by
  unfold purgeCommit
  split
  · refine (Calmer.setDb s ?_).trans (Calmer.endOp _ o)
    intro k p hp
    exact (get?_keep_some.mp hp).1
  · exact Calmer.refl s

/-! ### Deletions and passes -/

theorem mem_due {item : Item} (h : item ∈ s.due now) :
    ∃ p, s.db.pending.get? (item.luna, item.path) = some p ∧ p.deleteAfter ≤ now := by
  obtain ⟨⟨k, p⟩, hrow, rfl⟩ := mem_map.mp h
  have hselect := mem_mergeSort.mp (mem_of_mem_take hrow)
  obtain ⟨hget, hdue⟩ := mem_select.mp hselect
  exact ⟨p, hget, of_decide_eq_true hdue⟩

theorem Grace.passBegin {env : Env} (h : Grace env.now s) : Grace env.now (s.passBegin env) where
  reminders := h.reminders
  removals := h.removals
  waits := by
    intro a opa item t ha hwaits ht
    rcases get?_put_some.mp ha with ⟨-, rfl⟩ | ⟨-, ha'⟩
    · rcases hwaits with hmem | ⟨gone, heq⟩
      · obtain ⟨p, hp, hdue⟩ := mem_due hmem
        have hgrace := h.reminders _ p t hp ht
        omega
      · cases heq
    · exact h.waits a opa item t ha' hwaits ht

theorem Grace.passRemove {env : Env} (h : Grace env.now s) (o : Nat) (goes : Bool) :
    Grace env.now (s.passRemove env o goes) := by
  unfold State.passRemove
  split
  · rename_i rest item hop
    cases goes with
    | false => exact h.of_calmer (calmer_putAside hop)
    | true =>
      have hkept : Grace env.now (s.setOp o (.pass rest (some (item, true)))) := by
        apply h.of_calmer (Calmer.setOp s hop _ _)
        intro item' hwaits
        rcases hwaits with hmem | ⟨gone, heq⟩
        · exact .inl hmem
        · cases heq
          exact .inr ⟨false, rfl⟩
      refine ⟨hkept.reminders, hkept.waits, ?_⟩
      intro r hr t ht
      rcases mem_append.mp hr with hold | hnew
      · exact h.removals r hold t ht
      · rw [mem_singleton] at hnew
        subst hnew
        exact h.waits o _ item t hop (.inr ⟨false, rfl⟩) ht
  · exact h

/-- Nothing remembers an earlier deletion of this path. -/
def Forgotten (s : State B) (luna : Text) (path : BlobPath) : Prop :=
  s.db.pending.get? (luna, path) = none ∧
    ∀ o op item, s.ops.get? o = some op → op.Waits item → (item.luna, item.path) ≠ (luna, path)

theorem Grace.delete {env : Env} (h : Grace env.now s) (device luna : Text) (path : BlobPath) (sigOk : Bool)
    (hforgotten : (s.db.stored.get? (luna, path)).isSome → s.Forgotten luna path) :
    Grace env.now (s.delete env device luna path sigOk) := by
  unfold State.delete
  split
  · exact h
  cases s.db.authorizeLuna device luna sigOk false with
  | none => exact h
  | some link =>
    dsimp only
    split
    · exact h.of_calmer (Calmer.applyLink s luna link)
    rename_i row hrow
    rw [applyLink_stored] at hrow
    obtain ⟨hnone, hwaiting⟩ := hforgotten (by rw [hrow]; rfl)
    refine ⟨?_, ?_, h.removals⟩
    · intro k p t hp ht
      have ht' : (s.deletedAt.put (luna, path) env.now).get? k = some t := ht
      rw [get?_put] at ht'
      unfold Db.removeStored at hp
      rw [if_pos (by rw [applyLink_pending]; exact hnone)] at hp
      have hp' : ((s.db.applyLink luna link).pending.put (luna, path)
        ⟨row.backend, env.now + deleteGraceSeconds⟩).get? k = some p := hp
      rw [get?_put, applyLink_pending] at hp'
      split at ht'
      · rename_i hkey
        rw [if_pos hkey] at hp'
        cases hp'
        cases ht'
        exact Int.le_refl _
      · rename_i hkey
        rw [if_neg hkey] at hp'
        exact h.reminders k p t hp' ht'
    · intro o op item t hop hwaits ht
      have ht' : (s.deletedAt.put (luna, path) env.now).get? (item.luna, item.path) = some t := ht
      rw [get?_put, if_neg (hwaiting o op item hop hwaits)] at ht'
      exact h.waits o op item t hop hwaits ht'

end Grace

/-! ### Runs -/

section Runs

variable {hash : B → Text} {len : B → Nat} {s : State B} {env : Env}

/-- What a step must not do, for bytes and grace to be kept. -/
def Spared (s : State B) (env : Env) (a : Action B) : Prop :=
  s.clock ≤ env.now ∧
    match a with
    | .delete _ luna path _ => (s.db.stored.get? (luna, path)).isSome → s.Forgotten luna path
    | .purgeBegin none => s.SparesLunas none
    | .purgeRemove o false => ∀ purged rest, s.ops.get? o ≠ some (.purge purged rest true)
    | .crash => ∀ o purged rest, s.ops.get? o ≠ some (.purge purged rest true)
    | _ => True

def SparedRun (hash : B → Text) (len : B → Nat) : List (Env × Action B) → State B → Prop
  | [], _ => True
  | (env, a) :: rest, s => s.Spared env a ∧ SparedRun hash len rest (s.step hash len env a)

theorem Safe.act (h : Safe hash s) (hspared : s.Spared env a) : Safe hash (s.act hash len env a) := by
  cases a with
  | put device luna path body sigOk => exact h.beginPut len env device luna path body sigOk
  | storePut o goes => exact h.storePut env o goes
  | commitPut o => exact h.commitPut len o
  | cancelRemoval o => exact h.cancelRemoval o
  | delete device luna path sigOk => exact h.delete env device luna path sigOk
  | relink device luna sigOk => exact h.relink device luna sigOk
  | unbindDevice device => exact h.unbindDevice env.now device
  | passBegin => exact h.passBegin env
  | passLock o => exact h.passLock o
  | passRemove o goes => exact h.passRemove env o goes
  | passForget o => exact h.passForget o
  | purgeBegin purged =>
    apply h.purgeBegin env purged
    intro hnone
    subst hnone
    exact hspared.2
  | purgeRemove o goes =>
    apply h.purgeRemove o goes
    intro hfails
    subst hfails
    exact hspared.2
  | purgeCommit o => exact h.purgeCommit o
  | crash => exact h.crash hspared.2

theorem Safe.step (h : Safe hash s) (hspared : s.Spared env a) : Safe hash (s.step hash len env a) := by
  have hact : Safe hash (s.act hash len env a) := h.act hspared
  have hlocks : (s.step hash len env a).Locks := hact.locks
  have hnumbered : (s.step hash len env a).Numbered := hact.numbered
  apply hact.frame hlocks hnumbered rfl rfl
  · intro luna lr hlr hzero
    exact ⟨lr, hlr, hzero⟩
  · intro o op hop
    exact .inl hop
  · intro o purged rest hop
    exact hop

theorem Grace.act (h : Grace env.now s) (hspared : s.Spared env a) :
    Grace env.now (s.act hash len env a) := by
  cases a with
  | put device luna path body sigOk => exact h.of_calmer (calmer_beginPut s hash len env device luna path body sigOk)
  | storePut o goes => exact h.of_calmer (calmer_storePut s env o goes)
  | commitPut o => exact h.of_calmer (calmer_commitPut s len o)
  | cancelRemoval o => exact h.of_calmer (calmer_cancelRemoval s o)
  | delete device luna path sigOk => exact h.delete device luna path sigOk hspared.2
  | relink device luna sigOk => exact h.of_calmer (calmer_relink s device luna sigOk)
  | unbindDevice device => exact h.of_calmer (Calmer.setDb s fun _ _ hp => hp)
  | passBegin => exact h.passBegin
  | passLock o => exact h.of_calmer (calmer_passLock s o)
  | passRemove o goes => exact h.passRemove o goes
  | passForget o => exact h.of_calmer (calmer_passForget s o)
  | purgeBegin purged => exact h.of_calmer (calmer_purgeBegin s env purged)
  | purgeRemove o goes => exact h.of_calmer (calmer_purgeRemove s o goes)
  | purgeCommit o => exact h.of_calmer (calmer_purgeCommit s o)
  | crash => exact ⟨h.reminders, fun o op item t hop => (by cases hop), h.removals⟩

theorem Grace.step (h : Grace s.clock s) (hspared : s.Spared env a) :
    Grace (s.step hash len env a).clock (s.step hash len env a) := by
  have hact : Grace env.now (s.act hash len env a) := (h.later hspared.1).act hspared
  exact ⟨hact.reminders, hact.waits, hact.removals⟩

theorem Safe.empty : Safe hash (empty : State B) := by
  apply Safe.of_quiet
  · intro o op hop
    cases hop
  · intro o op hop
    cases hop
  · intro luna id row hrow
    cases hrow
  · intro o call backend hop
    cases hop

theorem Grace.empty (now : Int) : Grace now (empty : State B) := by
  refine ⟨?_, ?_, ?_⟩
  · intro k p t hp
    cases hp
  · intro o op item t hop
    cases hop
  · intro r hr
    cases hr

/-- A pack that is listed for a Luna in use is there, and what a pass removed had its grace. -/
def Kept (hash : B → Text) (s : State B) : Prop :=
  (∀ luna id row lr, s.db.stored.get? (luna, .pack id) = some row → s.db.lunas.get? luna = some lr → lr.purgeAfter = 0 →
      There hash s luna id) ∧
    ∀ r ∈ s.removals, ∀ t, r.deletedAt = some t → t + deleteGraceSeconds ≤ r.time

theorem Safe.kept (h : Safe hash s) {now : Int} (hgrace : Grace now s) : s.Kept hash := by
  refine ⟨?_, hgrace.removals⟩
  intro luna id row lr hrow hlr hzero
  rcases h.listed luna id row hrow with hthere | ⟨o, purged, rest, hop, hcov⟩
  · exact hthere
  · obtain ⟨-, hspares⟩ := h.ops o _ hop
    exact absurd hzero (hspares luna id row lr hcov hrow hlr)

theorem kept_of_spared (steps : List (Env × Action B)) (h : Safe hash s) (hgrace : Grace s.clock s)
    (hspared : SparedRun hash len steps s) : (run hash len steps s).Kept hash := by
  induction steps generalizing s with
  | nil => exact h.kept hgrace
  | cons first rest ih =>
    obtain ⟨env, a⟩ := first
    obtain ⟨hfirst, hrest⟩ := hspared
    exact ih (h.step hfirst) (hgrace.step hfirst) hrest

/-- Connect keeps what it lists, and what was deleted for its grace, through every run that is spared. -/
theorem listed_packs_kept (hash : B → Text) (len : B → Nat) (steps : List (Env × Action B))
    (hspared : SparedRun hash len steps empty) : (run hash len steps empty).Kept hash :=
  kept_of_spared steps Safe.empty (Grace.empty 0) hspared

def day (n : Int) : Env := ⟨n * 86400, .server, true, 2 ^ 40⟩

/-- The steps of an upload that goes through, as call `o`. -/
def upload (env : Env) (o : Nat) (id : Text) : List (Env × Action Text) :=
  [(env, .put ['d'] ['l'] (.pack id) id false), (env, .storePut o true), (env, .commitPut o)]

/-- Two packs; one is deleted, and a pass removes it a week later. -/
def deletedOnce : List (Env × Action Text) :=
  upload (day 1) 0 ['p'] ++ [(day 1, .cancelRemoval 0)] ++ upload (day 1) 1 ['q'] ++ [(day 1, .cancelRemoval 1),
    (day 2, .delete ['d'] ['l'] (.pack ['p']) false), (day 9, .passBegin), (day 9, .passLock 2),
    (day 9, .passRemove 2 true), (day 9, .passForget 2)]

theorem listed_packs_kept_of_deletion : (run id length deletedOnce empty).removals.length = 1 ∧
      (run id length deletedOnce empty).Kept id := by
  refine ⟨by decide +kernel, ?_⟩
  apply listed_packs_kept
  have hforgotten : (run id length (deletedOnce.take 8) empty).Forgotten ['l'] (.pack ['p']) := by
    refine ⟨by decide +kernel, ?_⟩
    intro o op item hop
    cases hop
  have hclock : ∀ n : Nat, n < 13 → (run id length (deletedOnce.take n) empty).clock ≤
      ((deletedOnce[n]?).map fun step => step.1.now).getD 0 := by
    decide +kernel
  exact ⟨⟨hclock 0 (by decide), trivial⟩, ⟨hclock 1 (by decide), trivial⟩, ⟨hclock 2 (by decide), trivial⟩,
    ⟨hclock 3 (by decide), trivial⟩, ⟨hclock 4 (by decide), trivial⟩, ⟨hclock 5 (by decide), trivial⟩,
    ⟨hclock 6 (by decide), trivial⟩, ⟨hclock 7 (by decide), trivial⟩, ⟨hclock 8 (by decide), fun _ => hforgotten⟩,
    ⟨hclock 9 (by decide), trivial⟩, ⟨hclock 10 (by decide), trivial⟩, ⟨hclock 11 (by decide), trivial⟩,
    ⟨hclock 12 (by decide), trivial⟩, trivial⟩

/-- Two packs of a device that was unbound; the purge removes the first and breaks off, and the device is back. -/
def purgeBrokenOff : List (Env × Action Text) :=
  upload (day 1) 0 ['p'] ++ upload (day 1) 1 ['q'] ++ [(day 2, .unbindDevice ['d']), (day 40, .purgeBegin (some ['l'])),
    (day 40, .purgeRemove 2 true), (day 40, .purgeRemove 2 false), (day 41, .relink ['d'] ['l'] false)]

/-- A pack is deleted, stored again without its reminder being dropped, and deleted once more. -/
def deletedTwice : List (Env × Action Text) :=
  upload (day 1) 0 ['p'] ++ [(day 1, .cancelRemoval 0), (day 2, .delete ['d'] ['l'] (.pack ['p']) false)] ++
    upload (day 3) 1 ['p'] ++ [(day 3, .crash), (day 8, .delete ['d'] ['l'] (.pack ['p']) false), (day 9, .passBegin),
    (day 9, .passLock 2), (day 9, .passRemove 2 true)]

/-- A pack is listed whose bytes are gone, and bytes go a day after they were deleted. -/
theorem listed_pack_is_gone : ¬ (run id length purgeBrokenOff empty).Kept id ∧
      ¬ (run id length deletedTwice empty).Kept id := by
  constructor
  · intro h
    obtain ⟨backend, bytes, hget, -⟩ := h.1 ['l'] ['p'] ⟨1, .server⟩ ⟨['d'], 0⟩ (by decide +kernel) (by decide +kernel) rfl
    cases backend with
    | server =>
      have hnone : (run id length purgeBrokenOff empty).objects.get? (.server, ['l'], .pack ['p']) = none := by
        decide +kernel
      cases hget
    | b2 =>
      have hnone : (run id length purgeBrokenOff empty).objects.get? (.b2, ['l'], .pack ['p']) = none := by
        decide +kernel
      cases hget
  · intro h
    have hfirst : (run id length deletedTwice empty).removals.head? =
        some ⟨['l'], .pack ['p'], 9 * 86400, some (8 * 86400)⟩ := by
      decide +kernel
    have hgrace := h.2 _ (mem_of_mem_head? hfirst) (8 * 86400) rfl
    revert hgrace
    decide

end Runs

end State

end LibreServ.Connect
