import LibreServ.OfficeRestores

/-! What a session of an office document keeps of its log, and what is true of a client that opened the document in
it: the newest edit of the log is the newest it waits for. -/

namespace LibreServ.Restore

open List Table
open Files (Text)

open Office (AuthMsg Clock DocSession HubError OpRecord SaveMsg sub64)

open LibreServ.Bundle (Quiet TakesNothing edits)

variable {new : List OpRecord} {time : Int} {op : OpRecord}

/-! ### One session -/

section Session

variable {s s' : DocSession} {now : Clock} {sock : Nat} {user username : Text} {m : AuthMsg} {canWrite : Bool}

/-- The log lies above the base and ends with the newest edit. -/
structure LogOk (accepted : List OpRecord) (s : DocSession) : Prop where
  span : s.baseIndex ≤ s.changeIndex
  above : ∀ op ∈ s.ops, s.baseIndex < op.idx
  ordered : ∀ op ∈ s.ops, op.idx ≤ s.changeIndex
  newest : ∀ op, s.ops.getLast? = some op → op.idx = s.changeIndex
  accepted : ∀ op ∈ s.ops, op ∈ accepted

theorem LogOk.quiet {accepted : List OpRecord} (h : LogOk accepted s) (hq : Quiet s s') :
    LogOk accepted s' := by
  refine ⟨?_, ?_, ?_, ?_, ?_⟩
  · rw [hq.baseIndex, hq.changeIndex]
    exact h.span
  · rw [hq.ops, hq.baseIndex]
    exact h.above
  · rw [hq.ops, hq.changeIndex]
    exact h.ordered
  · rw [hq.ops, hq.changeIndex]
    exact h.newest
  · rw [hq.ops]
    exact h.accepted

theorem Quiet.refl : Quiet s s := Quiet.of_same rfl rfl rfl rfl

theorem Quiet.trans {s'' : DocSession} (h : Quiet s s') (h' : Quiet s' s'') : Quiet s s'' where
  ops := h'.ops.trans h.ops
  baseIndex := h'.baseIndex.trans h.baseIndex
  changeIndex := h'.changeIndex.trans h.changeIndex
  present k hk := h.present k (h'.present k hk)

theorem quiet_takeIndex (m : AuthMsg) : Quiet s (s.takeIndex m) := by
  obtain ⟨n, htake⟩ := Bundle.exists_takeIndex s m
  rw [htake]
  exact Quiet.of_same rfl rfl rfl rfl

theorem quiet_replaceSock (old : Nat) : Quiet s (s.replaceSock now sock old) := by
  unfold DocSession.replaceSock
  split
  · exact Quiet.refl
  refine ⟨rfl, rfl, rfl, ?_⟩
  intro k hk
  have hget : ((s.participants.erase old).get? k).isSome := hk
  rw [get?_erase] at hget
  split at hget
  · cases hget
  · exact hget

/-- What joining leaves of the log, and who is there afterwards. -/
structure Entered (s : DocSession) (sock : Nat) (r : Except HubError DocSession.Joined × DocSession) : Prop where
  ops : r.2.ops = s.ops
  baseIndex : r.2.baseIndex = s.baseIndex
  changeIndex : r.2.changeIndex = s.changeIndex
  present : ∀ k, (r.2.participants.get? k).isSome → (∃ joined, r.1 = .ok joined ∧ k = sock) ∨ (s.participants.get? k).isSome

theorem Entered.error (hq : Quiet s s') (e : HubError) : Entered s sock (.error e, s') :=
  ⟨hq.ops, hq.baseIndex, hq.changeIndex, fun k hk => .inr (hq.present k hk)⟩

theorem Entered.before {r : Except HubError DocSession.Joined × DocSession} (h : Entered s' sock r)
    (hq : Quiet s s') : Entered s sock r where
  ops := h.ops.trans hq.ops
  baseIndex := h.baseIndex.trans hq.baseIndex
  changeIndex := h.changeIndex.trans hq.changeIndex
  present k hk := (h.present k hk).imp id fun hs => hq.present k hs

theorem entered_enter : Entered s sock (s.enter now sock user username m canWrite) := by
  rcases @DocSession.enter_cases s now sock user username m canWrite with ⟨e, he⟩ | ⟨e, he⟩ | ⟨joined, locks, he, -⟩
  · rw [he]
    exact Entered.error Quiet.refl e
  · rw [he]
    exact Entered.error (quiet_takeIndex m) e
  · rw [he]
    have hq := quiet_takeIndex (s := s) m
    refine ⟨hq.ops, hq.baseIndex, hq.changeIndex, ?_⟩
    intro k hk
    have hget : (((s.takeIndex m).participants.put sock (s.newcomer user username m canWrite)).get? k).isSome := hk
    rw [get?_put] at hget
    split at hget
    · rename_i hk
      exact .inl ⟨joined, rfl, hk⟩
    · exact .inr (hq.present k hget)

theorem entered_auth : Entered s sock (s.auth now sock user username m canWrite) := by
  rcases @DocSession.auth_cases s now sock user username m canWrite with ⟨e, he⟩ | ⟨-, -, he⟩ | ⟨old, p, -, -, -, he⟩
  · rw [he]
    exact Entered.error Quiet.touch e
  · rw [he]
    exact entered_enter.before Quiet.touch
  · rw [he]
    exact entered_enter.before (Quiet.trans Quiet.touch (quiet_replaceSock old))

theorem restoreOk_of_ops {s : DocSession} (h : s'.ops = s.ops) (id : Text) (m : AuthMsg) :
    s'.restoreOk id m = s.restoreOk id m := by
  unfold DocSession.restoreOk
  rw [h]

/-- An editor that is let in again passed the comparison with the newest edit. -/
theorem restoreOk_of_enter {joined : DocSession.Joined} (hok : (s.enter now sock user username m canWrite).1 = .ok joined)
    (hrestore : m.isRestore = true) (hview : m.view = false) : s.restoreOk (s.joinId user m) m = true := by
  unfold DocSession.enter at hok
  split at hok
  · cases hok
  have hnew : m.isRestore = true ∧ ¬ (s.newcomer user username m canWrite).view = true := by
    refine ⟨hrestore, ?_⟩
    show ¬ m.view = true
    rw [hview]
    exact Bool.false_ne_true
  rw [if_pos hnew] at hok
  split at hok
  · cases hok
  · rename_i hpass
    rw [DocSession.restoreOk_takeIndex] at hpass
    exact not_not.mp hpass

theorem restoreOk_of_auth {joined : DocSession.Joined} (hok : (s.auth now sock user username m canWrite).1 = .ok joined)
    (hrestore : m.isRestore = true) (hview : m.view = false) : s.restoreOk (s.joinId user m) m = true := by
  have hsame : ∀ s' : DocSession, s'.ops = s.ops → s'.nextIndexUser = s.nextIndexUser →
      s'.restoreOk (s'.joinId user m) m = true → s.restoreOk (s.joinId user m) m = true := by
    intro s' hops hnext h
    rw [restoreOk_of_ops hops] at h
    have hid : s'.joinId user m = s.joinId user m := by
      unfold DocSession.joinId DocSession.indexFor
      rw [hnext]
    rw [← hid]
    exact h
  rcases @DocSession.auth_cases s now sock user username m canWrite with ⟨e, he⟩ | ⟨-, -, he⟩ | ⟨old, p, -, hp, -, he⟩
  · rw [he] at hok
    cases hok
  · rw [he] at hok
    exact hsame (s.touch now) rfl rfl (restoreOk_of_enter hok hrestore hview)
  · rw [he] at hok
    have hreplaced : ((s.touch now).replaceSock now sock old).nextIndexUser = s.nextIndexUser := by
      unfold DocSession.replaceSock
      split
      · rfl
      · rfl
    exact hsame ((s.touch now).replaceSock now sock old) (quiet_replaceSock (s := s.touch now) old).ops hreplaced (restoreOk_of_enter hok hrestore hview)

/-- A session that was made again lets nobody in who comes back from another one. -/
theorem refused_of_resurrected {old : Nat} (hrestore : m.isRestore = true) (hrejoin : m.rejoin sock = some old)
    (hgone : s.participants.get? old = none) (hres : s.resurrected = true) :
    (s.auth now sock user username m canWrite).1 = .error .stale := by
  unfold DocSession.auth
  rw [hrejoin]
  have hgone' : (s.touch now).participants.get? old = none := hgone
  dsimp only
  rw [hgone']
  have hboth : (s.touch now).resurrected = true ∧ m.isRestore = true := ⟨hres, hrestore⟩
  rw [if_pos hboth]

/-- Times that differ by a second or more. -/
theorem stale_of_apart {t : Int} (ht : 0 ≤ t ∧ t < 2 ^ 63) (htime : 0 ≤ time ∧ time < 2 ^ 63)
    (h : 1000 ≤ (t - time).natAbs) : (sub64 t time).tdiv 1000 ≠ 0 := by
  have hsub : sub64 t time = t - time := by
    apply Int.bmod_eq_of_le
    · omega
    · omega
  rw [hsub]
  intro hzero
  have habs : (t - time).natAbs / 1000 = 0 := by
    have hdiv := Int.natAbs_tdiv (t - time) 1000
    rw [hzero] at hdiv
    exact hdiv.symm
  omega

theorem records_time {p : Office.Participant} {start : Int} {changes : List Text}
    (h : op ∈ DocSession.records time p start changes) : op.time = time := by
  induction changes generalizing start with
  | nil => cases h
  | cons change rest ih =>
    rcases mem_cons.mp h with rfl | hrest
    · rfl
    · exact ih hrest

theorem takesNothing {m : SaveMsg} (h : ¬ World.takesBack s m) : TakesNothing m s.changeIndex := by
  intro s' hindex
  unfold DocSession.undone
  split
  · rename_i hsave
    unfold DocSession.truncateOps
    rw [hindex]
    apply if_neg
    intro hlt
    exact h ⟨hsave.1, hsave.2, hlt⟩
  · rfl

end Session

/-! ### Clients of one session -/

/-- What is true of a client that opened the document in the session that is there now. -/
structure Follows (accepted baked : List OpRecord) (s : DocSession) (c : Client) : Prop where
  missed : c.missed = []
  known : ∀ op ∈ c.received ++ c.own ++ c.owed.flatten, op ∈ accepted
  apart : ∀ op ∈ c.received ++ c.own, ∀ op' ∈ c.owed.flatten, op.time ≠ op'.time
  frames : c.owed.Pairwise fun new later => ∀ op ∈ new, ∀ op' ∈ later, op.time ≠ op'.time
  /-- The newest edit of the log is the newest it waits for. -/
  newest : c.owed.flatten ≠ [] → s.ops.getLast? = c.owed.flatten.getLast?
  kept : ∀ op ∈ c.own, op ∈ s.ops ∨ op ∈ baked

theorem getLast?_mem {l : List OpRecord} (h : l ≠ []) : ∃ op ∈ l, l.getLast? = some op :=
  ⟨l.getLast h, getLast_mem h, getLast?_eq_some_getLast h⟩

section Client

variable {accepted baked : List OpRecord} {s : DocSession} {c : Client}

/-- Coming back with the time of the newest edit received is refused, or nothing is owed. -/
theorem Follows.restored (h : Follows accepted baked s c) {m : AuthMsg} (htells : World.Tells s c m)
    (htimes : ∀ op ∈ accepted, 0 ≤ op.time ∧ op.time < 2 ^ 63) (hlast : c.received.getLast? = some op)
    (htime : m.lastOtherSaveTime = some op.time) (hok : s.restoreOk (s.joinId c.user (c.asks m)) (c.asks m) = true) :
    c.owed.flatten = [] := by
  by_contra howed
  obtain ⟨newest, hmem, hflat⟩ := getLast?_mem howed
  have hlog : s.ops.getLast? = some newest := (h.newest howed).trans hflat
  have hreceived : op ∈ c.received := mem_of_getLast? hlast
  have hapart : op.time ≠ newest.time := h.apart op (mem_append_left _ hreceived) newest hmem
  rcases htells newest hlog with hown | ⟨hname, hfar⟩
  · exact h.apart newest (mem_append_right _ hown) newest hmem rfl
  unfold DocSession.restoreOk at hok
  rw [hlog] at hok
  have htime' : (c.asks m).lastOtherSaveTime = some op.time := htime
  rw [htime'] at hok
  rw [Bool.or_eq_true, decide_eq_true_iff, decide_eq_true_iff] at hok
  rcases hok with hsame | hzero
  · exact hname hsame
  · rcases hfar op.time htime with heq | hfar
    · exact hapart heq
    · have hop := htimes op (h.known op (mem_append_left _ (mem_append_left _ hreceived)))
      have hnew := htimes newest (h.known newest (mem_append_right _ hmem))
      exact stale_of_apart hop hnew hfar hzero

section

variable {s' : DocSession} (h : Follows accepted baked s c)
include h

/-- The log stays. -/
theorem Follows.quiet (hops : s'.ops = s.ops) : Follows accepted baked s' c := by
  refine ⟨h.missed, h.known, h.apart, h.frames, ?_, ?_⟩
  · rw [hops]
    exact h.newest
  · rw [hops]
    exact h.kept

/-- Somebody else's edits are accepted. -/
theorem Follows.owes
    (hops : s'.ops = s.ops ++ new) (htime : ∀ op ∈ new, op.time = time) (hfresh : new = [] ∨ ∀ op ∈ accepted, op.time ≠ time) :
    Follows (accepted ++ new) baked s' { c with owed := c.owed ++ [new] } := by
  have hflat : (c.owed ++ [new]).flatten = c.owed.flatten ++ new := by
    rw [flatten_append, flatten_singleton]
  have hdiffer : ∀ op ∈ accepted, ∀ op' ∈ new, op.time ≠ op'.time := by
    intro op hop op' hop'
    rcases hfresh with hnone | hfresh
    · rw [hnone] at hop'
      cases hop'
    · rw [htime op' hop']
      exact hfresh op hop
  refine ⟨h.missed, ?_, ?_, ?_, ?_, ?_⟩
  · intro op hop
    rw [hflat, ← append_assoc, mem_append] at hop
    rcases hop with hop | hop
    · exact mem_append_left _ (h.known op hop)
    · exact mem_append_right _ hop
  · intro op hop op' hop'
    rw [hflat, mem_append] at hop'
    rcases hop' with hop' | hop'
    · exact h.apart op hop op' hop'
    · exact hdiffer op (h.known op (mem_append_left _ hop)) op' hop'
  · rw [pairwise_append]
    refine ⟨h.frames, pairwise_singleton _ _, ?_⟩
    intro old hold later hlater op hop op' hop'
    rw [mem_singleton.mp hlater] at hop'
    exact hdiffer op (h.known op (mem_append_right _ (mem_flatten.mpr ⟨old, hold, hop⟩))) op' hop'
  · intro _
    rw [hflat, hops]
    cases new with
    | nil =>
      rw [append_nil, append_nil]
      rename_i howed
      rw [hflat, append_nil] at howed
      exact h.newest howed
    | cons op rest => rw [getLast?_append_cons, getLast?_append_cons]
  · intro op hop
    rw [hops]
    exact (h.kept op hop).imp (fun hlog => mem_append_left _ hlog) id

/-- Its own edits are accepted when it waits for none. -/
theorem Follows.saves (hops : s'.ops = s.ops ++ new) (hnone : new = [] ∨ c.owed.flatten = []) :
    Follows (accepted ++ new) baked s' { c with own := c.own ++ new } := by
  refine ⟨h.missed, ?_, ?_, h.frames, ?_, ?_⟩
  · intro op hop
    have hcases : op ∈ c.received ++ c.own ++ c.owed.flatten ∨ op ∈ new := by
      simp only [mem_append] at hop ⊢
      tauto
    rcases hcases with hop | hop
    · exact mem_append_left _ (h.known op hop)
    · exact mem_append_right _ hop
  · intro op hop op' hop'
    rcases hnone with hnone | hnone
    · rw [hnone, append_nil] at hop
      exact h.apart op hop op' hop'
    · have hop'' : op' ∈ c.owed.flatten := hop'
      rw [hnone] at hop''
      cases hop''
  · intro howed
    rcases hnone with hnone | hnone
    · rw [hops, hnone, append_nil]
      exact h.newest howed
    · exact absurd hnone howed
  · intro op hop
    rw [hops]
    have hcases : op ∈ c.own ∨ op ∈ new := mem_append.mp hop
    rcases hcases with hop | hop
    · exact (h.kept op hop).imp (fun hlog => mem_append_left _ hlog) id
    · exact .inl (mem_append_right _ hop)

end

/-- The next broadcast is received. -/
theorem Follows.receives (h : Follows accepted baked s c) {rest : List (List OpRecord)}
    (howed : c.owed = new :: rest) : Follows accepted baked s { c with received := c.received ++ new, owed := rest } := by
  have hflat : c.owed.flatten = new ++ rest.flatten := by rw [howed, flatten_cons]
  have hframes := h.frames
  rw [howed, pairwise_cons] at hframes
  refine ⟨h.missed, ?_, ?_, hframes.2, ?_, h.kept⟩
  · intro op hop
    apply h.known op
    rw [hflat]
    simp only [mem_append] at hop ⊢
    tauto
  · intro op hop op' hop'
    have hcases : op ∈ c.received ++ c.own ∨ op ∈ new := by
      simp only [mem_append] at hop ⊢
      tauto
    rcases hcases with hop | hop
    · apply h.apart op hop op'
      rw [hflat]
      exact mem_append_right _ hop'
    · obtain ⟨later, hlater, hmem⟩ := mem_flatten.mp hop'
      exact hframes.1 later hlater op hop op' hmem
  · intro hrest
    have hne : c.owed.flatten ≠ [] := by
      rw [hflat]
      exact append_ne_nil_of_right_ne_nil _ hrest
    rw [h.newest hne, hflat, getLast?_append_of_ne_nil _ hrest]

end Client

theorem getLast?_filter_of_keeps {l : List OpRecord} {keeps : OpRecord → Bool} (h : l.getLast? = some op)
    (hop : keeps op = true) : (l.filter keeps).getLast? = some op := by
  obtain ⟨older, rfl⟩ := getLast?_eq_some_iff.mp h
  rw [filter_append, filter_cons_of_pos hop]
  exact getLast?_concat

/-! ### Compaction -/

section Compaction

variable {accepted baked : List OpRecord} {s : DocSession} {now : Clock} {user : Text} {coverage : Option Int}

/-- What `bundle_refreshed` leaves: the edits above the new base. The newest goes only where the bundle reaches it. -/
structure Compacted (s s' : DocSession) (reached : Prop) : Prop where
  ops : s'.ops = s.ops.filter fun op => s'.baseIndex < op.idx
  base : s.baseIndex ≤ s'.baseIndex
  span : s'.baseIndex ≤ s'.changeIndex
  changeIndex : s'.changeIndex = s.changeIndex
  present : s'.participants = s.participants
  newest : reached ∨ ∀ op, s.ops.getLast? = some op → s'.baseIndex < op.idx

theorem compacted (h : LogOk accepted s) :
    Compacted s (s.bundleRefreshed now user coverage) (s.changeIndex ≤ World.bound s user coverage) := by
  rcases Bundle.World.bundleRefreshed_cases s now user coverage with
    ⟨-, hsame⟩ | ⟨-, keepFrom, hkeep, hops, hbase, hchange, hparts⟩
  · rw [hsame]
    refine ⟨?_, le_refl _, h.span, rfl, rfl, .inr fun op hop => h.above op (mem_of_getLast? hop)⟩
    symm
    apply filter_eq_self.mpr
    intro op hop
    exact decide_eq_true (h.above op hop)
  · have hspan := h.span
    have hbound : keepFrom = max s.baseIndex (min (World.bound s user coverage) s.changeIndex) := hkeep
    refine ⟨?_, ?_, ?_, hchange, hparts, ?_⟩
    · rw [hops, hbase]
    · omega
    · omega
    · by_cases hreached : s.changeIndex ≤ World.bound s user coverage
      · exact .inl hreached
      right
      intro op hop
      have hidx := h.newest op hop
      have habove := h.above op (mem_of_getLast? hop)
      omega

theorem LogOk.compacted {s' : DocSession} {reached : Prop} (h : LogOk accepted s) (hc : Compacted s s' reached) :
    LogOk accepted s' := by
  refine ⟨hc.span, ?_, ?_, ?_, ?_⟩
  · intro op hop
    rw [hc.ops, mem_filter] at hop
    exact of_decide_eq_true hop.2
  · intro op hop
    rw [hc.ops, mem_filter] at hop
    rw [hc.changeIndex]
    exact h.ordered op hop.1
  · intro op hop
    rw [hc.changeIndex]
    cases hlast : s.ops.getLast? with
    | none =>
      rw [getLast?_eq_none_iff] at hlast
      rw [hc.ops, hlast] at hop
      cases hop
    | some newest =>
      have hidx := h.newest newest hlast
      have hmem := mem_of_getLast? hop
      rw [hc.ops, mem_filter] at hmem
      by_cases hkeeps : s'.baseIndex < newest.idx
      · rw [hc.ops, getLast?_filter_of_keeps hlast (decide_eq_true hkeeps)] at hop
        rw [← Option.some.inj hop]
        exact hidx
      -- the base has passed the newest edit, and no older one lies above it
      have hspan := hc.span
      have hlow := h.ordered op hmem.1
      have habove := of_decide_eq_true hmem.2
      omega
  · intro op hop
    rw [hc.ops, mem_filter] at hop
    exact h.accepted op hop.1

theorem Follows.compacted {s' : DocSession} {reached : Prop} {c : Client} (h : Follows accepted baked s c)
    (hc : Compacted s s' reached) (hreached : reached → c.owed.flatten = []) :
    Follows accepted (baked ++ s.ops.filter fun op => op.idx ≤ s'.baseIndex) s' c := by
  refine ⟨h.missed, h.known, h.apart, h.frames, ?_, ?_⟩
  · intro howed
    rcases hc.newest with hall | hkeeps
    · exact absurd (hreached hall) howed
    · obtain ⟨newest, -, hlast⟩ := getLast?_mem howed
      have hlog := (h.newest howed).trans hlast
      rw [hc.ops, getLast?_filter_of_keeps hlog (decide_eq_true (hkeeps newest hlog)), hlast]
  · intro op hop
    rcases h.kept op hop with hlog | hbaked
    · by_cases hkeeps : s'.baseIndex < op.idx
      · left
        rw [hc.ops, mem_filter]
        exact ⟨hlog, decide_eq_true hkeeps⟩
      · right
        apply mem_append_right
        rw [mem_filter]
        exact ⟨hlog, decide_eq_true (not_lt.mp hkeeps)⟩
    · exact .inr (mem_append_left _ hbaked)

end Compaction

theorem LogOk.saves {accepted : List OpRecord} {s s' : DocSession} {p : Office.Participant}
    {changes : List Text} (h : LogOk accepted s) (hops : s'.ops = s.ops ++ DocSession.records time p s.changeIndex changes)
    (hbase : s'.baseIndex = s.baseIndex) (hchange : s'.changeIndex = s.changeIndex + changes.length) :
    LogOk (accepted ++ DocSession.records time p s.changeIndex changes) s' := by
  have hspan := h.span
  have hlength := Bundle.length_records time p s.changeIndex changes
  have hnew : ∀ op ∈ DocSession.records time p s.changeIndex changes, s.changeIndex < op.idx ∧ op.idx ≤ s'.changeIndex := by
    intro op hop
    obtain ⟨i, hi, rfl⟩ := getElem_of_mem hop
    rw [Bundle.idx_records]
    omega
  refine ⟨?_, ?_, ?_, ?_, ?_⟩
  · omega
  · intro op hop
    rw [hbase]
    rw [hops, mem_append] at hop
    rcases hop with hop | hop
    · exact h.above op hop
    · have hidx := hnew op hop
      omega
  · intro op hop
    rw [hops, mem_append] at hop
    rcases hop with hop | hop
    · have hidx := h.ordered op hop
      omega
    · exact (hnew op hop).2
  · intro op hop
    rw [hops] at hop
    by_cases hnone : DocSession.records time p s.changeIndex changes = []
    · rw [hnone, append_nil] at hop
      rw [hnone] at hlength
      rw [h.newest op hop, hchange, ← hlength]
      exact (Int.add_zero _).symm
    · rw [getLast?_append_of_ne_nil _ hnone, getLast?_eq_some_getLast hnone] at hop
      rw [← Option.some.inj hop, getLast_eq_getElem, Bundle.idx_records]
      have hpos := length_pos_of_ne_nil hnone
      omega
  · intro op hop
    rw [hops, mem_append] at hop
    rcases hop with hop | hop
    · exact mem_append_left _ (h.accepted op hop)
    · exact mem_append_right _ hop

end LibreServ.Restore
