import LibreServ.FormsFile

/-! Accepted answers stay. As long as an append that fails has written nothing, the file can be read, and names drawn
at random are new, every answer that was accepted and not deleted is shown as it was sent last, with its attachments,
and there are never more than the form allows. -/

namespace LibreServ.Forms

open List Option Table Except
open Files (Text trim)

variable {F C : Type} {latest : Table Text (Record F)} {r : Record F} {id : Text} {e : ApiError}

/-! ### The invariant -/

/-- What holds of the folders and of what was accepted, with these records in the file. -/
structure Holds (kit : Kit F C) (form : Form C) (records : List (Record F)) (s : State F) : Prop where
  written : Written kit.codec records s.folder
  owners : ∀ r ∈ records, ∀ r' ∈ records, ∀ n ∈ recordAttachments form r, n ∈ recordAttachments form r' → r'.id = r.id
  waiting : ∀ r ∈ records, ∀ n ∈ recordAttachments form r, n ∉ s.folder.pending
  files : ∀ id r, (latestById records).get? id = some r → ∀ n ∈ recordAttachments form r, n ∈ s.folder.files
  accepted : ∀ id, s.accepted.get? id = ((latestById records).get? id).bind Record.answers
  cap : ∀ max, formMaxResponses form = some max → (latestById records).rows.length ≤ max

section Steps

variable {kit : Kit F C} {form : Form C} {records : List (Record F)} {s : State F} {env : Env} {folder folder' : Folder}
  {body : RespondSubmit F} {answers : Answers F}

theorem Holds.settles (h : Holds kit form records s) (hs : Settles s.folder folder') :
    Holds kit form records ⟨folder', s.accepted⟩ where
  written := h.written.of_same hs.answers
  owners := h.owners
  waiting := fun r hr n hn hp => h.waiting r hr n hn (hs.pending n hp)
  files := by
    intro id r hr n hn
    exact hs.files n (h.files id r hr n hn) (h.waiting r (latestById_mem hr).1 n hn)
  accepted := h.accepted
  cap := h.cap

theorem settles_sweepPending : Settles folder (sweepPending env folder) where
  answers := rfl
  pending := fun _ hn => (mem_filter.mp hn).1
  files := fun _ hn _ => hn

theorem appendRecord_fails
    (h : appendRecord kit.codec env.append r folder = (.error e, folder'))
    (hclean : ∀ written, env.append = .fails written → written = 0) : Settles folder folder' := by
  cases happend : env.append with
  | goes =>
    rw [happend] at h
    cases h
  | fails written =>
    rw [happend, hclean written happend] at h
    obtain ⟨-, rfl⟩ := Prod.mk.inj h
    refine ⟨?_, fun n hn => hn, fun n hn _ => hn⟩
    show folder.answers.getD [] ++ _ = _
    rw [take_zero, append_nil]

theorem appendRecord_goes {u : Unit}
    (h : appendRecord kit.codec env.append r folder = (.ok u, folder')) :
    env.append = .goes ∧
      folder' = { folder with answers := some (folder.answers.getD [] ++ encode (line kit.codec r)) } := by
  cases happend : env.append with
  | goes =>
    rw [happend] at h
    exact ⟨rfl, (Prod.mk.inj h).2.symm⟩
  | fails written =>
    rw [happend] at h
    cases h

theorem storeAnswer_error {newFiles previous : List Text}
    (h : storeAnswer kit form env r newFiles previous folder = (.error e, folder'))
    (hclean : ∀ written, env.append = .fails written → written = 0) : Settles folder folder' := by
  unfold storeAnswer at h
  have hclaim : Settles folder (claimAll env [] (newFiles.filter fun n => !previous.contains n) folder).2 :=
    Settles.rfl'.claimAll fun _ hn => absurd hn not_mem_nil
  simp only at h
  split at h
  · rename_i e' f heq
    rw [heq] at hclaim
    obtain ⟨-, rfl⟩ := Prod.mk.inj h
    exact hclaim
  · rename_i u f heq
    obtain ⟨-, -, hwere, -, -⟩ := claimAll_ok heq
    rw [heq] at hclaim
    split at h
    · rename_i e' f' happend
      obtain ⟨-, rfl⟩ := Prod.mk.inj h
      have hfail := appendRecord_fails happend hclean
      have hboth : Settles folder f' := by
        cases hap : env.append with
        | goes =>
          rw [hap] at happend
          cases happend
        | fails written =>
          rw [hap] at happend
          obtain ⟨-, rfl⟩ := Prod.mk.inj happend
          exact ⟨hfail.answers.trans hclaim.answers, hclaim.pending, hclaim.files⟩
      exact hboth.release hwere
    · cases h

theorem storeAnswer_ok {newFiles previous : List Text}
    (h : storeAnswer kit form env r newFiles previous folder = (.ok id, folder')) :
    id = r.id ∧ env.append = .goes ∧ ∃ u claimed,
      claimAll env [] (newFiles.filter fun n => !previous.contains n) folder = (.ok u, claimed) ∧
      folder' = removeAttachments form (previous.filter fun n => !newFiles.contains n)
        { claimed with answers := some (claimed.answers.getD [] ++ encode (line kit.codec r)) } := by
  unfold storeAnswer at h
  simp only at h
  split at h
  · cases h
  rename_i u claimed heq
  split at h
  · cases h
  · rename_i u' f happend
    obtain ⟨hid, rfl⟩ := Prod.mk.inj h
    obtain ⟨hgoes, rfl⟩ := appendRecord_goes happend
    exact ⟨(ok.inj hid).symm, hgoes, u, claimed, heq, rfl⟩

theorem findEditable_live {responseId : Option Text} {hash : Text}
    (h : findEditable latest responseId hash = .ok (some id)) : ∃ r, latest.get? id = some r := by
  unfold findEditable at h
  split at h
  · rename_i wanted
    split at h
    · rename_i hmatch
      obtain rfl := some.inj (ok.inj h)
      obtain ⟨r, hr, -⟩ := any_eq_true _ _ |>.mp hmatch
      exact ⟨r, hr⟩
    · cases h
  · have hfound := ok.inj h
    obtain ⟨row, hrow, rfl⟩ := map_eq_some_iff.mp hfound
    have hmem := mem_of_find?_eq_some hrow
    rw [sorted, mem_mergeSort] at hmem
    exact ⟨row.2, mem_rows.mp hmem⟩

theorem editingId_live (h : editingId kit body latest = .ok (some id)) :
    ∃ r, latest.get? id = some r := by
  unfold editingId at h
  split at h
  · exact findEditable_live h
  · split at h
    · cases h
    · cases h

/-- A submission that is refused leaves the folders as they were. -/
theorem respondSubmitInner_error
    (h : respondSubmitInner kit form env body folder = (.error e, folder'))
    (hclean : ∀ written, env.append = .fails written → written = 0) : Settles folder folder' := by
  unfold respondSubmitInner at h
  split at h
  · obtain ⟨-, rfl⟩ := Prod.mk.inj h
    exact Settles.rfl'
  split at h
  · obtain ⟨-, rfl⟩ := Prod.mk.inj h
    exact Settles.rfl'
  split at h
  · obtain ⟨-, rfl⟩ := Prod.mk.inj h
    exact Settles.rfl'
  split at h
  · obtain ⟨-, rfl⟩ := Prod.mk.inj h
    exact Settles.rfl'
  have hswept : Settles folder (sweepPending env folder) := settles_sweepPending
  unfold respondLocked at h
  split at h
  · obtain ⟨-, rfl⟩ := Prod.mk.inj h
    exact hswept
  simp only at h
  split at h
  · obtain ⟨-, rfl⟩ := Prod.mk.inj h
    exact hswept
  split at h
  · obtain ⟨-, rfl⟩ := Prod.mk.inj h
    exact hswept
  split at h
  · obtain ⟨-, rfl⟩ := Prod.mk.inj h
    exact hswept
  · have hstore := storeAnswer_error h hclean
    refine ⟨hstore.answers.trans hswept.answers, fun n hn => hswept.pending n (hstore.pending n hn), ?_⟩
    intro n hn hp
    exact hstore.files n hn fun hsw => hp (hswept.pending n hsw)

/-- What a submission that was accepted went through. -/
theorem respondSubmitInner_ok (hread : readResponseRecords kit.codec folder = .ok records)
    (h : respondSubmitInner kit form env body folder = (.ok id, folder')) :
    ∃ sent editing, body.answers = some sent ∧ editingId kit body (latestById records) = .ok editing ∧
      ¬ (editing = none ∧ (formMaxResponses form).any fun max => max ≤ (latestById records).rows.length) ∧
      validateAnswers kit form (keepKnownAnswers form sent)
        (fun n => (previousFiles form (latestById records) editing).contains n ||
          (sweepPending env folder).pending.contains n) = none ∧
      storeAnswer kit form env (newRecord kit env body (keepKnownAnswers form sent) editing)
        (attachmentsIn form (keepKnownAnswers form sent)) (previousFiles form (latestById records) editing)
        (sweepPending env folder) = (.ok id, folder') := by
  unfold respondSubmitInner at h
  split at h
  · cases h
  split at h
  · cases h
  split at h
  · cases h
  rename_i sent hsent
  split at h
  · cases h
  have hswept : readResponseRecords kit.codec (sweepPending env folder) = .ok records := hread
  unfold respondLocked at h
  rw [hswept] at h
  simp only at h
  split at h
  · cases h
  rename_i editing hediting
  split at h
  · cases h
  · rename_i hroom
    split at h
    · cases h
    · rename_i hvalid
      exact ⟨sent, editing, hsent, hediting, hroom, hvalid, h⟩

/-! ### An answer that is accepted -/

theorem attachments_newRecord {editing : Option Text} :
    recordAttachments form (newRecord kit env body answers editing) = attachmentsIn form answers := by
  cases editing with
  | none | some id => rfl

theorem newRecord_live {editing : Option Text} : (newRecord kit env body answers editing).deleted = false ∧
      (newRecord kit env body answers editing).answers = some answers := by
  cases editing with
  | none | some id => exact ⟨rfl, rfl⟩

/-- The files of the response that is edited stand on its latest record. -/
theorem mem_previousFiles {editing : Option Text} {n : Text}
    (h : n ∈ previousFiles form latest editing) :
    ∃ id r, editing = some id ∧ latest.get? id = some r ∧ n ∈ recordAttachments form r := by
  unfold previousFiles at h
  cases hr : editing.bind latest.get? with
  | none =>
    rw [hr] at h
    cases h
  | some r =>
    obtain ⟨id, hid, hget⟩ := bind_eq_some_iff.mp hr
    rw [hr] at h
    exact ⟨id, r, hid, hget, h⟩

theorem mem_removeAttachments {names : List Text} {n : Text} (hn : n ∈ folder.files) (hnot : n ∉ names) :
    n ∈ (removeAttachments form names folder).files := by
  apply mem_filter.mpr
  refine ⟨hn, ?_⟩
  have hfalse : names.contains n = false := by
    rw [contains_eq_mem, decide_eq_false_iff_not]
    exact hnot
  rw [hfalse]
  rfl

section Accepted

variable {editing : Option Text} {claimed : Folder} {u : Unit}

/-- Names on the new record are its own: files the response had, or uploads nobody has named. -/
theorem Holds.owner_new (h : Holds kit form records s)
    (hvalid : validateAnswers kit form answers (fun n => (previousFiles form (latestById records) editing).contains n ||
      s.folder.pending.contains n) = none)
    {n : Text} (hn : n ∈ attachmentsIn form answers) (hr : r ∈ records)
    (hboth : n ∈ recordAttachments form r) : editing = some r.id := by
  have hmay := canAttach_of_valid hvalid hn
  rw [Bool.or_eq_true, contains_iff_mem, contains_iff_mem] at hmay
  rcases hmay with hprev | hpend
  · obtain ⟨id, p, hediting, hp, hpn⟩ := mem_previousFiles hprev
    obtain ⟨hpmem, hpid, -⟩ := latestById_mem hp
    rw [hediting, ← hpid, h.owners p hpmem r hr n hpn hboth]
  · exact absurd hpend (h.waiting r hr n hboth)

theorem newRecord_id_of_editing : (newRecord kit env body answers (some id)).id = id := rfl

section

variable (h : Holds kit form records s) (hediting : editingId kit body (latestById records) = .ok editing)
  (hroom : ¬ (editing = none ∧ (formMaxResponses form).any fun max => max ≤ (latestById records).rows.length))
include h hediting hroom

/-- The response an accepted answer belongs to. -/
theorem newRecord_count
    (hfresh : (latestById records).get? env.newResponseId = none) {max : Nat} (hmax : formMaxResponses form = some max)
    (r : Record F) (hr : r.id = (newRecord kit env body answers editing).id) :
    ((latestById records).put r.id r).rows.length ≤ max := by
  cases editing with
  | none =>
    rw [hr]
    have hnone : (latestById records).get? (newRecord kit env body answers none).id = none := hfresh
    rw [length_put_of_none hnone]
    rw [hmax] at hroom
    have hlt : ¬ max ≤ (latestById records).rows.length := fun hle => hroom ⟨rfl, decide_eq_true hle⟩
    omega
  | some id =>
    obtain ⟨p, hp⟩ := editingId_live hediting
    rw [hr, newRecord_id_of_editing, length_put_of_some hp]
    exact h.cap max hmax

theorem Holds.submitted
    (hvalid : validateAnswers kit form answers (fun n => (previousFiles form (latestById records) editing).contains n ||
      s.folder.pending.contains n) = none)
    (hclaim : claimAll env [] ((attachmentsIn form answers).filter fun n =>
      !(previousFiles form (latestById records) editing).contains n) s.folder = (.ok u, claimed))
    (hfresh : (latestById records).get? env.newResponseId = none)
    (hparse : kit.codec.parse (kit.codec.print (newRecord kit env body answers editing)) =
      some (newRecord kit env body answers editing))
    (hfits : (s.folder.answers.getD []).length +
      (encode (line kit.codec (newRecord kit env body answers editing))).length ≤ maxResponsesReadBytes) :
    Holds kit form (records ++ [newRecord kit env body answers editing]) ⟨removeAttachments form
          ((previousFiles form (latestById records) editing).filter fun n => !(attachmentsIn form answers).contains n)
          { claimed with
            answers := some (claimed.answers.getD [] ++ encode (line kit.codec (newRecord kit env body answers editing))) },
        s.accepted.put (newRecord kit env body answers editing).id answers⟩ := by
  obtain ⟨hfiles, hpending, hwere, hstay, hanswers⟩ := claimAll_ok hclaim
  obtain ⟨hlive, hrans⟩ := @newRecord_live F C kit env body answers editing
  have hattach := @attachments_newRecord F C kit form env body answers editing
  have hid : ∀ id, editing = some id → (newRecord kit env body answers editing).id = id := by
    rintro id rfl
    rfl
  have hcount : ∀ max, formMaxResponses form = some max →
      ((latestById records).put (newRecord kit env body answers editing).id
        (newRecord kit env body answers editing)).rows.length ≤ max := fun max hmax =>
    newRecord_count h hediting hroom hfresh hmax _ rfl
  have howner : ∀ n ∈ attachmentsIn form answers, ∀ r ∈ records, n ∈ recordAttachments form r →
      r.id = (newRecord kit env body answers editing).id := fun n hn r hr hboth =>
    (hid r.id (h.owner_new hvalid hn hr hboth)).symm
  generalize newRecord kit env body answers editing = new at *
  have hlatest : latestById (records ++ [new]) = (latestById records).put new.id new := by
    rw [latestById_append, supersede, hlive]
    rfl
  constructor
  · have hwritten : Written kit.codec records { s.folder with answers := claimed.answers } :=
      h.written.of_same (by rw [hanswers])
    rw [← hanswers] at hfits
    exact (hwritten.append hparse hfits).of_same rfl
  · intro r hr r' hr' n hn hn'
    rcases mem_append.mp hr with hold | hnew
    · rcases mem_append.mp hr' with hold' | hnew'
      · exact h.owners r hold r' hold' n hn hn'
      · rw [mem_singleton.mp hnew', hattach] at hn'
        rw [mem_singleton.mp hnew', howner n hn' r hold hn]
    · rw [mem_singleton.mp hnew, hattach] at hn
      rw [mem_singleton.mp hnew]
      rcases mem_append.mp hr' with hold' | hnew'
      · exact howner n hn r' hold' hn'
      · rw [mem_singleton.mp hnew']
  · intro r hr n hn hp
    obtain ⟨hwas, hnotNew⟩ := hpending n hp
    rcases mem_append.mp hr with hold | hnew
    · exact h.waiting r hold n hn hwas
    rw [mem_singleton.mp hnew, hattach] at hn
    -- An upload the answer names was claimed, and a file it had before waits no more.
    by_cases hprev : n ∈ previousFiles form (latestById records) editing
    · obtain ⟨id, p, -, hpget, hpn⟩ := mem_previousFiles hprev
      exact h.waiting p (latestById_mem hpget).1 n hpn hwas
    · apply hnotNew
      apply mem_filter.mpr
      refine ⟨hn, ?_⟩
      rw [contains_eq_mem, decide_eq_false hprev]
      rfl
  · intro id r hr n hn
    rw [hlatest, get?_put] at hr
    apply mem_removeAttachments
    · split at hr
      · obtain rfl := some.inj hr
        rw [hattach] at hn
        by_cases hprev : n ∈ previousFiles form (latestById records) editing
        · obtain ⟨id', p, -, hpget, hpn⟩ := mem_previousFiles hprev
          exact hstay n (h.files id' p hpget n hpn)
        · apply hfiles
          apply mem_filter.mpr
          refine ⟨hn, ?_⟩
          rw [contains_eq_mem, decide_eq_false hprev]
          rfl
      · exact hstay n (h.files id r hr n hn)
    · intro hdropped
      obtain ⟨hprev, hgone⟩ := mem_filter.mp hdropped
      obtain ⟨id', p, hed, hpget, hpn⟩ := mem_previousFiles hprev
      split at hr
      · obtain rfl := some.inj hr
        rw [hattach] at hn
        rw [contains_eq_mem, decide_eq_true hn] at hgone
        cases hgone
      · rename_i hother
        obtain ⟨hrmem, hrid, -⟩ := latestById_mem hr
        obtain ⟨hpmem, hpid, -⟩ := latestById_mem hpget
        have hsame := h.owners p hpmem r hrmem n hpn hn
        exact hother (by rw [← hrid, hsame, hpid, hid id' hed])
  · intro id
    rw [hlatest, get?_put, get?_put]
    split
    · rw [bind_some, hrans]
    · exact h.accepted id
  · intro max hmax
    rw [hlatest]
    exact hcount max hmax

end

end Accepted

/-! ### A response that is deleted -/

theorem deleteResponse_error {id : Option Text}
    (h : deleteResponse kit form env id folder = (.error e, folder'))
    (hclean : ∀ written, env.append = .fails written → written = 0) : Settles folder folder' := by
  unfold deleteResponse at h
  split at h
  · obtain ⟨-, rfl⟩ := Prod.mk.inj h
    exact Settles.rfl'
  split at h
  · obtain ⟨-, rfl⟩ := Prod.mk.inj h
    exact Settles.rfl'
  split at h
  · obtain ⟨-, rfl⟩ := Prod.mk.inj h
    exact Settles.rfl'
  · split at h
    · rename_i happend
      obtain ⟨-, rfl⟩ := Prod.mk.inj h
      exact appendRecord_fails happend hclean
    · cases h

theorem deleteResponse_ok {id : Option Text} {gone : Text}
    (hread : readResponseRecordsGuarded kit.codec folder = .ok records)
    (h : deleteResponse kit form env id folder = (.ok gone, folder')) :
    (id.map trim).filter (· ≠ []) = some gone ∧ env.append = .goes ∧
      folder' = removeAttachments form ((records.filter fun r => r.id = gone).flatMap (recordAttachments form))
        { folder with answers := some (folder.answers.getD [] ++ encode (line kit.codec (tombstone env gone))) } := by
  unfold deleteResponse at h
  split at h
  · cases h
  rename_i wanted hwanted
  rw [hread] at h
  simp only at h
  split at h
  · cases h
  split at h
  · cases h
  · rename_i happend
    obtain ⟨hid, rfl⟩ := Prod.mk.inj h
    obtain ⟨hgoes, rfl⟩ := appendRecord_goes happend
    obtain rfl := ok.inj hid
    exact ⟨hwanted, hgoes, rfl⟩

theorem Holds.deleted (h : Holds kit form records s)
    (hparse : kit.codec.parse (kit.codec.print (tombstone env id)) = some (tombstone env id))
    (hfits : (s.folder.answers.getD []).length + (encode (line kit.codec (tombstone env id))).length ≤
      maxResponsesReadBytes) :
    Holds kit form (records ++ [tombstone env id])
      ⟨removeAttachments form ((records.filter fun r => r.id = id).flatMap (recordAttachments form))
          { s.folder with
            answers := some (s.folder.answers.getD [] ++ encode (line kit.codec (tombstone env id))) },
        s.accepted.erase id⟩ := by
  have hlatest : latestById (records ++ [tombstone env id]) = (latestById records).erase id := by
    rw [latestById_append]
    rfl
  have hmem : ∀ r ∈ records ++ [tombstone env id], ∀ n ∈ recordAttachments form r, r ∈ records := by
    intro r hr n hn
    rcases mem_append.mp hr with hold | hnew
    · exact hold
    · rw [mem_singleton.mp hnew] at hn
      cases hn
  constructor
  · exact (h.written.append hparse hfits).of_same rfl
  · intro r hr r' hr' n hn hn'
    exact h.owners r (hmem r hr n hn) r' (hmem r' hr' n hn') n hn hn'
  · intro r hr n hn
    exact h.waiting r (hmem r hr n hn) n hn
  · intro id' r hr n hn
    rw [hlatest] at hr
    obtain ⟨hother, hr⟩ := get?_erase_some.mp hr
    obtain ⟨hrmem, hrid, -⟩ := latestById_mem hr
    apply mem_removeAttachments (h.files id' r hr n hn)
    intro hnamed
    obtain ⟨r', hr', hn'⟩ := mem_flatMap.mp hnamed
    obtain ⟨hrmem', hrid'⟩ := mem_filter.mp hr'
    have hsame := h.owners r' hrmem' r hrmem n hn' hn
    exact hother (by rw [← hrid, hsame, of_decide_eq_true hrid'])
  · intro id'
    rw [hlatest, get?_erase, get?_erase]
    split
    · rfl
    · exact h.accepted id'
  · intro max hmax
    rw [hlatest]
    exact le_trans (length_keep_le _ _) (h.cap max hmax)

end Steps

/-! ### Runs -/

/-- The step meets nothing that could cost an answer: a failing append has written nothing, the file stays small
enough to be read and the line is read back as it was written, and ids and names drawn at random are not in use. -/
def Lucky (kit : Kit F C) (form : Form C) (env : Env) (s : State F) : Action F → Prop
  | .uploaded name =>
    ∀ records, readResponseRecords kit.codec s.folder = .ok records → ∀ r ∈ records, name ∉ recordAttachments form r
  | .submit body =>
    (∀ written, env.append = .fails written → written = 0) ∧
      ∀ records sent editing, readResponseRecords kit.codec s.folder = .ok records → body.answers = some sent →
        editingId kit body (latestById records) = .ok editing → env.append = .goes →
        (latestById records).get? env.newResponseId = none ∧
          kit.codec.parse (kit.codec.print (newRecord kit env body (keepKnownAnswers form sent) editing)) =
            some (newRecord kit env body (keepKnownAnswers form sent) editing) ∧
          (s.folder.answers.getD []).length +
            (encode (line kit.codec (newRecord kit env body (keepKnownAnswers form sent) editing))).length ≤
              maxResponsesReadBytes
  | .delete id =>
    (∀ written, env.append = .fails written → written = 0) ∧
      ∀ gone, (id.map trim).filter (· ≠ []) = some gone → env.append = .goes →
        kit.codec.parse (kit.codec.print (tombstone env gone)) = some (tombstone env gone) ∧
          (s.folder.answers.getD []).length + (encode (line kit.codec (tombstone env gone))).length ≤
            maxResponsesReadBytes

def LuckyRun (kit : Kit F C) (form : Form C) : List (Env × Action F) → State F → Prop
  | [], _ => True
  | (env, a) :: rest, s => Lucky kit form env s a ∧ LuckyRun kit form rest (step kit form env s a).2

section Runs

variable {kit : Kit F C} {form : Form C} {records : List (Record F)} {s : State F} {env : Env} {a : Action F}

theorem Holds.empty : Holds kit form [] (State.empty : State F) where
  written := ⟨rfl, nofun, Nat.zero_le _⟩
  owners := nofun
  waiting := nofun
  files := nofun
  accepted := fun _ => rfl
  cap := fun _ _ => Nat.zero_le _

/-- A call that answers with an error keeps the records. -/
theorem Holds.step_error (h : Holds kit form records s) (hlucky : Lucky kit form env s a)
    (he : (step kit form env s a).1 = .error e) : Holds kit form records (step kit form env s a).2 := by
  cases a with
  | uploaded name => cases he
  | submit body =>
    have hr : respondSubmitInner kit form env body s.folder =
        (.error e, (respondSubmitInner kit form env body s.folder).2) := Prod.ext he rfl
    have hsettled := h.settles (respondSubmitInner_error hr hlucky.1)
    show Holds kit form records ⟨_, noteAccepted form body s.accepted (respondSubmitInner kit form env body s.folder).1⟩
    rw [show (respondSubmitInner kit form env body s.folder).1 = .error e from he]
    exact hsettled
  | delete id =>
    have hr : deleteResponse kit form env id s.folder = (.error e, (deleteResponse kit form env id s.folder).2) :=
      Prod.ext he rfl
    have hsettled := h.settles (deleteResponse_error hr hlucky.1)
    show Holds kit form records ⟨_, noteDeleted s.accepted (deleteResponse kit form env id s.folder).1⟩
    rw [show (deleteResponse kit form env id s.folder).1 = .error e from he]
    exact hsettled

/-- A call that succeeds adds at most its own record. -/
theorem Holds.step_ok (hcodec : kit.codec.OneLine) (h : Holds kit form records s) (hlucky : Lucky kit form env s a)
    (hok : (step kit form env s a).1 = .ok id) :
    ∃ records', Holds kit form records' (step kit form env s a).2 := by
  have hread := h.written.read hcodec
  cases a with
  | uploaded name =>
    refine ⟨records, h.written.of_same rfl, h.owners, ?_, h.files, h.accepted, h.cap⟩
    intro r hr n hn hpend
    rcases mem_cons.mp hpend with rfl | hold
    · exact hlucky records hread r hr hn
    · exact h.waiting r hr n hn hold
  | submit body =>
    have hr : respondSubmitInner kit form env body s.folder =
        (.ok id, (respondSubmitInner kit form env body s.folder).2) := Prod.ext hok rfl
    obtain ⟨sent, editing, hsent, hediting, hroom, hvalid, hstore⟩ := respondSubmitInner_ok hread hr
    obtain ⟨rfl, hgoes, u, claimed, hclaim, hfolder⟩ := storeAnswer_ok hstore
    obtain ⟨hfresh, hparse, hfits⟩ := hlucky.2 records sent editing hread hsent hediting hgoes
    have hswept := h.settles (settles_sweepPending : Settles s.folder (sweepPending env s.folder))
    refine ⟨records ++ [newRecord kit env body (keepKnownAnswers form sent) editing], ?_⟩
    show Holds kit form _ ⟨(respondSubmitInner kit form env body s.folder).2, noteAccepted form body s.accepted _⟩
    rw [show (respondSubmitInner kit form env body s.folder).1 = _ from hok, hfolder, noteAccepted, hsent]
    exact hswept.submitted hediting hroom hvalid hclaim hfresh hparse hfits
  | delete wanted =>
    have hr : deleteResponse kit form env wanted s.folder =
        (.ok id, (deleteResponse kit form env wanted s.folder).2) := Prod.ext hok rfl
    obtain ⟨hwanted, hgoes, hfolder⟩ := deleteResponse_ok (h.written.readGuarded hcodec) hr
    obtain ⟨hparse, hfits⟩ := hlucky.2 id hwanted hgoes
    refine ⟨records ++ [tombstone env id], ?_⟩
    show Holds kit form _ ⟨(deleteResponse kit form env wanted s.folder).2, noteDeleted s.accepted _⟩
    rw [show (deleteResponse kit form env wanted s.folder).1 = _ from hok, hfolder]
    exact h.deleted hparse hfits

theorem Holds.run (hcodec : kit.codec.OneLine) {steps : List (Env × Action F)} (h : Holds kit form records s)
    (hlucky : LuckyRun kit form steps s) : ∃ records', Holds kit form records' (run kit form steps s) := by
  induction steps generalizing s records with
  | nil => exact ⟨records, h⟩
  | cons first rest ih =>
    cases hout : (step kit form first.1 s first.2).1 with
    | error e => exact ih (h.step_error hlucky.1 hout) hlucky.2
    | ok id =>
      obtain ⟨records', hnext⟩ := h.step_ok hcodec hlucky.1 hout
      exact ih hnext hlucky.2

end Runs

/-- **Accepted answers are kept.** After any steps that meet none of these accidents, the file can be read; what was
accepted last for a response and not deleted since is shown, with its attachments in the folder; there are at most as
many live responses as the form allows; and a next call that fails leaves the records as they are. -/
theorem accepted_answers_kept (kit : Kit F C) (hcodec : kit.codec.OneLine) (form : Form C) (steps : List (Env × Action F))
    (hlucky : LuckyRun kit form steps State.empty) :
    ∃ records, readResponseRecords kit.codec (run kit form steps State.empty).folder = .ok records ∧
      (∀ id answers, (run kit form steps State.empty).accepted.get? id = some answers →
        (∃ shown ∈ latestInOrder records, shown.id = id ∧ shown.answers = some answers) ∧
          ∀ n ∈ attachmentsIn form answers, n ∈ (run kit form steps State.empty).folder.files) ∧
      (∀ max, formMaxResponses form = some max → (latestById records).rows.length ≤ max) ∧
      ∀ env a e, Lucky kit form env (run kit form steps State.empty) a →
        (step kit form env (run kit form steps State.empty) a).1 = .error e →
        readResponseRecords kit.codec (step kit form env (run kit form steps State.empty) a).2.folder = .ok records := by
  obtain ⟨records, h⟩ := Holds.empty.run hcodec hlucky
  refine ⟨records, h.written.read hcodec, ?_, h.cap, ?_⟩
  · intro id answers haccepted
    rw [h.accepted id] at haccepted
    obtain ⟨r, hr, hanswers⟩ := bind_eq_some_iff.mp haccepted
    obtain ⟨shown, hshown, hid, hsame⟩ := shown_of_latest hr
    refine ⟨⟨shown, hshown, hid, hsame.trans hanswers⟩, fun n hn => h.files id r hr n ?_⟩
    rw [recordAttachments, hanswers]
    exact hn
  · intro env a e hnext herror
    exact (h.step_error hnext herror).written.read hcodec

/-! A form that asks for one file and takes one answer. -/

def passForm : Form Unit := ⟨true, some 1, [⟨some "q1".toList, "file".toList, none, true, none, ()⟩]⟩

def quoted (t : Text) : Text := ['"'] ++ t ++ ['"']

/-- An object on one line. -/
def braced (fields : List Text) : Text := ['{'] ++ ([','].intercalate fields).filter (· ≠ '\n') ++ ['}']

def passValue : Value Empty → Text
  | .str s => quoted s
  | _ => "null".toList

/-- The fields of a record in the order `serde_json` writes them; nothing here needs an escape. -/
def passPrint (r : Record Empty) : Text :=
  braced
    ((r.answers.map fun a =>
        "\"answers\":".toList ++ braced (a.rows.map fun row => quoted row.1 ++ [':'] ++ passValue row.2)).toList ++
      (r.time.map fun n => "\"at\":".toList ++ (toString n).toList).toList ++
      (if r.deleted then ["\"deleted\":true".toList] else []) ++
      (r.edit.map fun e => "\"edit\":".toList ++ quoted e).toList ++
      ["\"id\":".toList ++ quoted r.id, "\"v\":1".toList])

theorem newline_not_mem_braced (fields : List Text) : '\n' ∉ braced fields := by
  intro hmem
  rw [braced, mem_append, mem_append, mem_filter] at hmem
  rcases hmem with (hopen | hbody) | hclose
  · revert hopen
    decide
  · exact of_decide_eq_true hbody.2 rfl
  · revert hclose
    decide

theorem trim_braced (fields : List Text) : trim (braced fields) = braced fields := by
  apply Files.trimMatches_eq_self
  · intro ch hch
    obtain rfl := some.inj hch
    rfl
  · intro ch hch
    rw [braced, getLast?_concat] at hch
    obtain rfl := some.inj hch
    rfl

theorem passPrint_oneLine (parse : Text → Option (Record Empty)) : Codec.OneLine ⟨passPrint, parse⟩ where
  noNewline := fun _ => newline_not_mem_braced _
  trimmed := fun _ => trim_braced _
  nonempty := fun _ => append_ne_nil_of_right_ne_nil _ (cons_ne_nil _ _)

def passFile : Text := "0123456789abcdef.pdf".toList

def passAnswers : Answers Empty := Table.empty.put "q1".toList (.str passFile)

def passBody : RespondSubmit Empty := ⟨some passAnswers, none, none⟩

def passEnv (id : String) (append : Append) : Env :=
  ⟨1700000000, none, id.toList, "secret".toList, fun _ => false, fun _ => true, fun _ => true, append⟩

/-- The records of two submissions are read back; nothing else is a line. -/
def passKit : Kit Empty Unit where
  codec := {
    print := passPrint
    parse := fun line => ["r_0000000001", "r_0000000002"].findSome? fun id =>
      let r : Record Empty := ⟨id.toList, some "secret".toList, some 1700000000, some (keepKnownAnswers passForm passAnswers), false⟩
      if line = passPrint r then some r else none }
  hashEditToken := fun token => token
  questionSkipped := fun _ _ _ => false
  shapeOk := fun _ _ => true

def passRun (steps : List (Env × Action Empty)) : State Empty := run passKit passForm steps State.empty

def passSent : List (Env × Action Empty) :=
  [(passEnv "" .goes, .uploaded passFile), (passEnv "r_0000000001" .goes, .submit passBody)]

theorem accepted_answers_kept_of_pass :
    ∃ records, readResponseRecords passKit.codec (passRun passSent).folder = .ok records ∧
      (∃ shown ∈ latestInOrder records, shown.id = "r_0000000001".toList ∧
        shown.answers = some (keepKnownAnswers passForm passAnswers)) ∧
      passFile ∈ (passRun passSent).folder.files := by
  have hlucky : LuckyRun passKit passForm passSent State.empty := by
    refine ⟨?_, ⟨(fun written h => nomatch h), ?_⟩, trivial⟩
    · intro records hread r hr
      obtain rfl := ok.inj hread
      cases hr
    · intro records sent editing hread hsent hediting _
      obtain rfl := ok.inj hread
      obtain rfl := some.inj hsent
      obtain rfl := ok.inj hediting
      exact ⟨rfl, rfl, by decide +kernel⟩
  obtain ⟨records, hread, hkept, -⟩ :=
    accepted_answers_kept passKit (passPrint_oneLine passKit.codec.parse) passForm passSent hlucky
  have hanswer : (passRun passSent).accepted.get? "r_0000000001".toList = some (keepKnownAnswers passForm passAnswers) := rfl
  obtain ⟨hshown, hfiles⟩ := hkept _ _ hanswer
  exact ⟨records, hread, hshown, hfiles passFile (by decide +kernel)⟩

/-- The first line breaks off after six bytes; the second answer is accepted and cannot be read. -/
def passTorn : List (Env × Action Empty) :=
  [(passEnv "" .goes, .uploaded passFile), (passEnv "r_0000000001" (.fails 6), .submit passBody),
    (passEnv "r_0000000002" .goes, .submit passBody)]

theorem answer_lost_behind_torn_line : ((passRun passTorn).accepted.get? "r_0000000002".toList).isSome = true ∧
      readResponseRecords passKit.codec (passRun passTorn).folder = .ok [] := by
  refine ⟨by decide +kernel, ?_⟩
  let first := passPrint ⟨"r_0000000001".toList, some "secret".toList, some 1700000000,
    some (keepKnownAnswers passForm passAnswers), false⟩
  let second := passPrint ⟨"r_0000000002".toList, some "secret".toList, some 1700000000,
    some (keepKnownAnswers passForm passAnswers), false⟩
  have hfile : (passRun passTorn).folder.answers = some (encode (first.take 6 ++ second ++ ['\n'])) := by
    decide +kernel
  have hparse : (parseResponseRecords passKit.codec (first.take 6 ++ second ++ ['\n'])).isEmpty = true := by
    decide +kernel
  unfold readResponseRecords
  rw [hfile]
  simp only
  rw [decode_encode]
  exact congrArg Except.ok (List.isEmpty_iff.mp hparse)

end LibreServ.Forms
