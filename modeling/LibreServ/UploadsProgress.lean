import LibreServ.UploadsCoverage

/-! Concurrent `write_chunk` calls on one upload. A call reads the progress so far, lets the lock go for
its disk write and then sets the progress to the larger of what it had read and its own end, so a call
that was overtaken sets it back; and a flush takes the pending entry out before its transaction, so a
transaction that fails drops it. When neither happens, and no shorter range is sent again at an old
start, every range and the largest end are recorded in the end. -/

namespace LibreServ.Uploads

open Sections

variable {s t : Session} {G : ℕ → Option Progress} {w : ℕ} {g g' : Progress}

/-- A request on the upload. -/
inductive Call where
  | write (start len : ℕ)
  | flush
  deriving DecidableEq

/-- What a call remembers: its request, the progress it read and whether its range is entered. -/
structure Progress where
  call : Call
  prev : ℕ
  noted : Bool

/-- The calls on one upload. The server does not restart. -/
def crew : Crew Call Label Input Empty Session UploadError ℕ Progress where
  prog
    | .write start len => writeChunk start len
    | .flush => flushNow
  restart k _ := k.elim
  start call := ⟨call, 0, false⟩
  note l _ s g :=
    match l with
    | .load => { g with prev := s.current }
    | .note _ _ => { g with noted := true }
    | _ => g

/-- An upload of `size` bytes that was just created, with no call on it yet. -/
def fresh (size : ℕ) : Pool Label Input Session UploadError ℕ Progress := ⟨create size, fun _ => none⟩

/-- A call enters its range only while the progress is no further than what the call read or its own
end, and no longer range is recorded or pending at its start; a transaction fails only when nothing is
pending. -/
def Timely (w : ℕ) (l : Label) (i : Input) (s : Session) (G : ℕ → Option Progress) : Prop :=
  match l with
  | .note start stop =>
    (∀ g, G w = some g → s.current ≤ max g.prev stop) ∧
      ∀ e, s.flushed.get? (asI64 start) = some e → e ≤ asI64 stop
  | .flush => i.txFails = true → s.pending = none
  | _ => True

/-- Some call of the run was asked to write `[start, stop)`. -/
def Wrote (x : Pool Label Input Session UploadError ℕ Progress) (start stop : ℕ) : Prop :=
  ∃ w g len, x.notes w = some g ∧ g.call = .write start len ∧ stop = start + len

/-! ### The invariant -/

/-- The range `[start, start + len)` is in a row, or will be after the next flush. -/
def Covered (s : Session) (start len : ℕ) : Prop :=
  ∃ e : ℕ, s.flushed.get? start = some (e : ℤ) ∧ start + len ≤ e

/-- The call has entered its range, which ends at `stop`. -/
def Progress.Entered (g : Progress) (stop : ℕ) : Prop :=
  g.noted = true ∧ ∃ start len, g.call = .write start len ∧ start + len = stop

/-- Nothing that was entered is lost, and the progress is the largest end entered. -/
structure Tracked (s : Session) (G : ℕ → Option Progress) : Prop where
  prev_le : ∀ w g, G w = some g → g.prev ≤ s.current
  received_le : s.received ≤ s.current
  entered : ∀ w g, G w = some g → g.noted = true → ∀ start len, g.call = .write start len →
    start + len ≤ s.current ∧ Covered s start len
  reached : s.current = 0 ∨ ∃ w g, G w = some g ∧ g.Entered s.current

/-- The progress, recorded and reported, does not go back. -/
def Advances (s t : Session) : Prop := s.received ≤ t.received ∧ s.current ≤ t.current

theorem Advances.of_eq {s t : Session} (hr : t.received = s.received) (hc : t.current = s.current) :
    Advances s t := ⟨hr.ge, hc.ge⟩

/-- A section that leaves the records alone keeps the invariant, whatever progress at most the current
one its worker has read. -/
theorem Tracked.of_same (h : Tracked s G) (hg : G w = some g) (hcall : g'.call = g.call)
    (hnoted : g'.noted = g.noted) (hprev : g'.prev ≤ s.current) (hflushed : t.flushed = s.flushed)
    (hcurrent : t.current = s.current) (hreceived : t.received ≤ s.current) :
    Tracked t (Function.update G w (some g')) := by
  have hcovered : ∀ start len, Covered s start len → Covered t start len := by
    intro start len hs
    rw [Covered, hflushed]
    exact hs
  refine ⟨?_, hcurrent ▸ hreceived, ?_, ?_⟩ <;> rw [hcurrent]
  · exact forall_update_some.mpr ⟨hprev, fun v k _ hk => h.prev_le v k hk⟩
  · refine forall_update_some.mpr ⟨?_, ?_⟩
    · intro hnoted' start len hcall'
      have hentered := h.entered w g hg (hnoted ▸ hnoted') start len (hcall ▸ hcall')
      exact ⟨hentered.1, hcovered start len hentered.2⟩
    · intro v k _ hk hknoted start len hkcall
      have hentered := h.entered v k hk hknoted start len hkcall
      exact ⟨hentered.1, hcovered start len hentered.2⟩
  · refine h.reached.imp_right fun hreached => exists_update_some hg ?_ hreached
    rintro ⟨hknoted, hkcall⟩
    exact ⟨hnoted.trans hknoted, by rw [hcall]; exact hkcall⟩

/-- A range that reaches past the progress the call had read, or that nothing has overtaken, is added:
the progress becomes the larger of the two ends. -/
theorem Tracked.note (h : Tracked s G) (size : ℕ) (i : Input) {start len : ℕ}
    (hg : G w = some g) (hcall : g.call = .write start len) (hlt : start + len < 2 ^ 63)
    (hprogress : s.current ≤ max g.prev (start + len))
    (hlonger : ∀ e, s.flushed.get? (asI64 start) = some e → e ≤ asI64 (start + len)) :
    Tracked (notePending start (start + len) size g.prev i s).2
        (Function.update G w (some { g with noted := true })) ∧
      Advances s (notePending start (start + len) size g.prev i s).2 := by
  have hprev := h.prev_le w g hg
  set t := (notePending start (start + len) size g.prev i s).2 with ht
  have hcurrent : t.current = max s.current (start + len) := by
    have : t.current = max g.prev (start + len) := rfl
    omega
  have hreceived : t.received = s.received := rfl
  have hflushed : t.flushed = s.flushed.put start (start + len : ℕ) := by
    rw [ht, notePending_flushed, upsertUploadChunk, asI64_of_lt (by omega : start < 2 ^ 63), asI64_of_lt hlt]
  rw [asI64_of_lt (by omega : start < 2 ^ 63), asI64_of_lt hlt] at hlonger
  have hcovered : ∀ start' len', Covered s start' len' → Covered t start' len' := by
    rintro start' len' ⟨e, he, hle⟩
    by_cases hstart : (start' : ℤ) = start
    · -- the row at this start grows or stays
      rw [hstart] at he
      have hgrow := hlonger e he
      refine ⟨start + len, ?_, by omega⟩
      rw [hflushed, hstart, Table.get?_put_self]
    · refine ⟨e, ?_, hle⟩
      rw [hflushed, Table.get?_put_of_ne _ _ hstart]
      exact he
  have hreceived' := h.received_le
  refine ⟨⟨?_, by omega, ?_, ?_⟩, ⟨hreceived.ge, by omega⟩⟩
  · refine forall_update_some.mpr ⟨by simp only; omega, ?_⟩
    intro v k _ hk
    have := h.prev_le v k hk
    omega
  · refine forall_update_some.mpr ⟨?_, ?_⟩
    · intro _ start' len' hcall'
      obtain ⟨rfl, rfl⟩ : start = start' ∧ len = len' := by
        rw [hcall] at hcall'
        exact Call.write.inj hcall'
      refine ⟨by omega, start + len, ?_, le_refl _⟩
      rw [hflushed, Table.get?_put_self]
    · intro v k _ hk hknoted start' len' hkcall
      have hentered := h.entered v k hk hknoted start' len' hkcall
      exact ⟨by omega, hcovered start' len' hentered.2⟩
  · rw [hcurrent]
    by_cases hle : s.current ≤ start + len
    · rw [max_eq_right hle]
      exact .inr ⟨w, _, Function.update_self .., rfl, start, len, hcall, rfl⟩
    · rw [max_eq_left (by omega)]
      refine h.reached.imp_right fun hreached => exists_update_some hg ?_ hreached
      rintro ⟨-, hkcall⟩
      exact ⟨rfl, hkcall⟩

/-! ### The sections -/

theorem diskWrite_snd (start stop : ℕ) (i : Input) (s : Session) : (diskWrite start stop i s).2.flushed = s.flushed ∧
      (diskWrite start stop i s).2.current = s.current ∧
      (diskWrite start stop i s).2.received = s.received := by
  unfold diskWrite
  split <;> exact ⟨rfl, rfl, rfl⟩

/-- A flush whose transaction goes through, or that has nothing to do, loses nothing. -/
theorem flushSection_snd {i : Input} (hrule : i.txFails = true → s.pending = none) :
    (flushSection i s).2.flushed = s.flushed ∧ (flushSection i s).2.current = s.current ∧
      ((flushSection i s).2.received = s.received ∨
        (flushSection i s).2.received = s.current) := by
  unfold flushSection flushPending
  cases hp : s.pending with
  | none => cases i.found <;> exact ⟨rfl, rfl, .inl rfl⟩
  | some p =>
    have htx : i.txFails = false := by
      cases htx : i.txFails with
      | false => rfl
      | true => rw [hrule htx] at hp; cases hp
    cases i.found with
    | false => exact ⟨rfl, rfl, .inl rfl⟩
    | true =>
      simp only [htx, Bool.false_eq_true]
      refine ⟨?_, ?_, .inr ?_⟩
      · simp [Session.flushed, hp]
      · simp [Session.current, hp]
      · simp [Session.current, hp]

/-- A call that has returned has entered its range. -/
def Returned (r : Except UploadError ℕ) (g : Progress) : Prop :=
  ∀ n, r = .ok n → ∀ start len, g.call = .write start len → g.noted = true

theorem safe_flush (g : Progress) {post : Except UploadError Unit → Progress → Prop} (hpost : ∀ r, post r g) :
    (Prog.tryAct .flush flushSection).Safe crew.note Timely Tracked Advances w g post := by
  refine Prog.safe_tryAct fun i s G hinv hg hrule => ?_
  obtain ⟨hflushed, hcurrent, hreceived⟩ := flushSection_snd hrule
  have hle := hinv.received_le
  exact ⟨hinv.of_same hg rfl rfl (hinv.prev_le w g hg) hflushed hcurrent (by omega), ⟨by omega, hcurrent.ge⟩, hpost _⟩

theorem writeChunk_safe (w start len : ℕ) :
    (writeChunk start len).Safe crew.note Timely Tracked Advances w ⟨.write start len, 0, false⟩
      Returned := by
  refine Prog.Safe.bind (fun r g => g = ⟨.write start len, r.2, false⟩) ?_ ?_
  · refine Prog.safe_tryAct fun i s G hinv hg _ => ?_
    refine ⟨hinv.of_same hg rfl rfl (le_refl _) rfl rfl hinv.received_le, .of_eq rfl rfl, ?_⟩
    cases hload : load i s with
    | error e => exact fun n hn => nomatch hn
    | ok r =>
      obtain rfl := load_ok hload
      rfl
  rintro ⟨size, prev⟩ g rfl
  refine Prog.Safe.bind (fun stop g => stop = start + len ∧ g = ⟨.write start len, prev, false⟩) ?_ ?_
  · refine Prog.safe_ofExcept ?_
    cases hend : chunkEnd start len size with
    | error e => exact fun n hn => nomatch hn
    | ok stop => exact ⟨(chunkEnd_ok hend).1, rfl⟩
  rintro stop g ⟨rfl, rfl⟩
  refine Prog.Safe.bind
    (fun _ g => start + len < 2 ^ 63 ∧ g = ⟨.write start len, prev, false⟩) ?_ ?_
  · refine Prog.safe_tryAct fun i s G hinv hg _ => ?_
    obtain ⟨hflushed, hcurrent, hreceived⟩ := diskWrite_snd start (start + len) i s
    refine ⟨hinv.of_same hg rfl rfl (hinv.prev_le w _ hg) hflushed hcurrent
      (hreceived ▸ hinv.received_le), .of_eq hreceived hcurrent, ?_⟩
    rcases hwrite : diskWrite start (start + len) i s with ⟨_ | _, t⟩
    · exact fun n hn => nomatch hn
    · exact ⟨(diskWrite_ok hwrite).2.2, rfl⟩
  rintro _ g ⟨hlt, rfl⟩
  refine Prog.Safe.bind (fun _ g => g = ⟨.write start len, prev, true⟩) ?_ ?_
  · refine Prog.safe_act fun i s G hinv hg hrule => ?_
    obtain ⟨htracked, hadvances⟩ :=
      hinv.note size i hg rfl hlt (hrule.1 _ hg) hrule.2
    exact ⟨htracked, hadvances, rfl⟩
  rintro doFlush g rfl
  cases doFlush with
  | true =>
    refine Prog.Safe.bind (fun _ g => g = ⟨.write start len, prev, true⟩) ?_ ?_
    · refine safe_flush _ ?_
      rintro (e | _)
      · exact fun n hn => nomatch hn
      · rfl
    · rintro _ g rfl
      exact fun _ _ _ _ _ => rfl
  | false => exact fun _ _ _ _ _ => rfl

theorem crew_keeps : Pool.Keeps crew Timely Tracked Advances Returned where
  start call w s G hinv hw := by
    refine ⟨?_, hinv.received_le, ?_, ?_⟩
    · exact forall_update_some.mpr ⟨Nat.zero_le _, fun v k _ hk => hinv.prev_le v k hk⟩
    · refine forall_update_some.mpr ⟨(nomatch ·), ?_⟩
      exact fun v k _ hk => hinv.entered v k hk
    · refine hinv.reached.imp_right ?_
      rintro ⟨v, k, hk, hentered⟩
      refine ⟨v, k, ?_, hentered⟩
      rwa [Function.update_of_ne (by rintro rfl; rw [hw] at hk; cases hk)]
  safe call w := by
    cases call with
    | write start len => exact writeChunk_safe w start len
    | flush =>
      refine Prog.Safe.bind (fun _ g => g = ⟨.flush, 0, false⟩) ?_ ?_
      · refine safe_flush _ ?_
        rintro (e | _)
        · exact fun n hn => nomatch hn
        · rfl
      · rintro _ g rfl
        exact fun _ _ _ _ hcall => nomatch hcall
  restart k := k.elim

/-- In a run whose sections are all timely the progress never goes back, and once every call has
returned and nothing is pending, every range that was written is recorded and the recorded progress is
the largest end. -/
theorem concurrent_writes_recorded {size : ℕ} {es : List (PoolEvent Call Input Empty)}
    (htimely : Pool.Meets crew Timely es (fresh size)) :
    (∀ es₁ es₂, es = es₁ ++ es₂ → Advances (Pool.run crew es₁ (fresh size)).state
        (Pool.run crew es (fresh size)).state) ∧
      ((∀ w y, (Pool.run crew es (fresh size)).workers w = some y → ∃ n, y.prog = .done n) →
        (Pool.run crew es (fresh size)).state.pending = none →
        (∀ start stop, Wrote (Pool.run crew es (fresh size)) start stop →
          ∃ e : ℕ, (Pool.run crew es (fresh size)).state.chunks.get? start = some (e : ℤ) ∧ stop ≤ e) ∧
        IsLUB {stop | ∃ start, Wrote (Pool.run crew es (fresh size)) start stop}
          (Pool.run crew es (fresh size)).state.received) := by
  have hstart : (fresh size).Sound crew Timely Tracked Advances Returned :=
    Pool.sound_of_empty ⟨fun _ _ h => (nomatch h), le_refl _, fun _ _ h => (nomatch h), .inl rfl⟩
  refine ⟨?_, fun hdone hpending => ?_⟩
  · rintro es₁ es₂ rfl
    obtain ⟨htimely₁, htimely₂⟩ := Pool.meets_append.mp htimely
    rw [Pool.run_append]
    refine (hstart.run crew_keeps htimely₁).run_guar crew_keeps (fun s => ⟨le_refl _, le_refl _⟩) ?_
      htimely₂
    exact fun s t u hst htu => ⟨hst.1.trans htu.1, hst.2.trans htu.2⟩
  have hsound := hstart.run crew_keeps htimely
  set x := Pool.run crew es (fresh size) with hx
  have hcurrent : x.state.current = x.state.received := by rw [Session.current, hpending]
  have hflushed : x.state.flushed = x.state.chunks := by rw [Session.flushed, hpending]
  have hentered : ∀ start stop, Wrote x start stop → stop ≤ x.state.received ∧
      ∃ e : ℕ, x.state.chunks.get? start = some (e : ℤ) ∧ stop ≤ e := by
    rintro start stop ⟨w, g, len, hg, hcall, rfl⟩
    obtain ⟨y, hy, rfl⟩ := Option.map_eq_some_iff.mp hg
    obtain ⟨n, hn⟩ := hdone w y hy
    have hnoted := hsound.note_of_done hy hn n rfl start len hcall
    rw [← hcurrent, ← hflushed]
    exact hsound.kept.entered w y.note hg hnoted start len hcall
  refine ⟨fun start stop h => (hentered start stop h).2, ?_, ?_⟩
  · rintro stop ⟨start, h⟩
    exact (hentered start stop h).1
  · intro n hn
    rcases hsound.kept.reached with hzero | ⟨w, g, hg, -, start, len, hcall, hend⟩
    · omega
    · have := hn ⟨start, w, g, len, hg, hcall, rfl⟩
      omega

/-- Two writes that follow one another, the second of them with its flush. -/
def inTurn : List (PoolEvent Call Input Empty) :=
  [.start 0 (.write 0 5), .step 0 calm, .step 0 calm, .step 0 calm, .start 1 (.write 5 5), .step 1 calm,
    .step 1 calm, .step 1 calm, .step 1 calm]

theorem inTurn_timely : Pool.Meets crew Timely inTurn (fresh 10) := by
  have hnote : ∀ g, some (⟨.write 0 5, 0, false⟩ : Progress) = some g → 0 ≤ max g.prev 5 := by
    intro g _
    exact Nat.zero_le _
  have hnote' : ∀ g, some (⟨.write 5 5, 5, false⟩ : Progress) = some g → 5 ≤ max g.prev 10 := by
    intro g hg
    cases hg
    decide
  refine Pool.meets_start (Pool.meets_step rfl trivial (Pool.meets_step rfl trivial ?_))
  refine Pool.meets_step rfl ⟨hnote, fun _ he => (nomatch he)⟩ (Pool.meets_start ?_)
  refine Pool.meets_step rfl trivial (Pool.meets_step rfl trivial ?_)
  refine Pool.meets_step rfl ⟨hnote', fun _ he => (nomatch he)⟩ ?_
  exact Pool.meets_step rfl (fun h => nomatch h) trivial

theorem inTurn_recorded : (Pool.run crew inTurn (fresh 10)).state.pending = none ∧
      IsLUB {stop | ∃ start, Wrote (Pool.run crew inTurn (fresh 10)) start stop} 10 := by
  refine ⟨rfl, ((concurrent_writes_recorded inTurn_timely).2 ?_ rfl).2⟩
  intro w y hy
  match w, hy with
  | 0, rfl => exact ⟨_, rfl⟩
  | 1, rfl => exact ⟨_, rfl⟩
  | _ + 2, hy => exact nomatch hy

/-- Two writes load the progress; the one for the second half is entered and flushed first, and then
the other sets the progress back. -/
def overtaken : List (PoolEvent Call Input Empty) :=
  [.start 0 (.write 0 5), .start 1 (.write 5 5), .step 0 calm, .step 1 calm, .step 1 calm, .step 1 calm,
    .step 1 calm, .step 0 calm, .step 0 calm, .start 2 .flush, .step 2 calm]

/-- One write, and then a flush whose transaction fails. -/
def dropped : List (PoolEvent Call Input Empty) :=
  [.start 0 (.write 0 5), .step 0 calm, .step 0 calm, .step 0 calm, .start 1 .flush,
    .step 1 { calm with txFails := true }]

/-- Every call returns and the progress is flushed, but it says 5 where 10 was reached; and a failed
transaction leaves its range neither pending nor recorded. -/
theorem overtaken_write_sets_progress_back :
    ((∀ w y, (Pool.run crew overtaken (fresh 10)).workers w = some y → ∃ n, y.prog = .done n) ∧
      (Pool.run crew overtaken (fresh 10)).state.pending = none ∧
      Wrote (Pool.run crew overtaken (fresh 10)) 5 10 ∧
      (Pool.run crew overtaken (fresh 10)).state.received = 5) ∧
    (Wrote (Pool.run crew dropped (fresh 10)) 0 5 ∧ (Pool.run crew dropped (fresh 10)).state.pending = none ∧
      (Pool.run crew dropped (fresh 10)).state.chunks.rows = []) := by
  refine ⟨⟨?_, rfl, ⟨1, _, 5, rfl, rfl, rfl⟩, rfl⟩, ⟨0, _, 5, rfl, rfl, rfl⟩, rfl, rfl⟩
  intro w y hy
  match w, hy with
  | 0, rfl => exact ⟨_, rfl⟩
  | 1, rfl => exact ⟨_, rfl⟩
  | 2, rfl => exact ⟨_, rfl⟩
  | _ + 3, hy => exact nomatch hy

end LibreServ.Uploads
