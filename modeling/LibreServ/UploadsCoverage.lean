import LibreServ.Uploads

/-! Which uploads `upload_fully_covered` accepts. After any sequence of accepted writes and flushes the
recorded ranges are, for each start, the range that was sent last there: a row that is written again
takes the new end, also when that end is smaller. The sweep itself is exact on the recorded ranges. -/

namespace LibreServ.Uploads

open Sections List Table

variable {stop : ℕ}

/-- A session of an upload of `size` bytes after the writes `sent`, oldest first, each accepted, with
flushes anywhere between them. -/
inductive Sent (size : ℕ) : List (ℕ × ℕ) → Session → Prop
  | create : Sent size [] (create size)
  | write {sent : List (ℕ × ℕ)} {s t : Session} {start len received : ℕ} (before : Sent size sent s)
      (accepted : (writeChunk start len).Runs s (.ok received) t) :
      Sent size (sent ++ [(start, start + len)]) t
  | flush {sent : List (ℕ × ℕ)} {s t : Session} {n : ℕ} (before : Sent size sent s)
      (flushed : flushNow.Runs s (.ok n) t) : Sent size sent t

/-- The end that was sent last at `start`. -/
def lastEnd (sent : List (ℕ × ℕ)) (start : ℕ) : Option ℕ := sent.reverse.lookup start

/-- Byte `b` is in the range that was sent last at some start. -/
def Kept (sent : List (ℕ × ℕ)) (b : ℕ) : Prop :=
  ∃ start stop, lastEnd sent start = some stop ∧ start ≤ b ∧ b < stop

/-- Byte `b` was sent in a range that was cut short by a later, shorter one at the same start. -/
def CutOff (sent : List (ℕ × ℕ)) (b : ℕ) : Prop :=
  ∃ start stop short, (start, stop) ∈ sent ∧ lastEnd sent start = some short ∧ short ≤ b ∧ b < stop

/-- The rows the ranges `sent` leave once all of them are flushed. -/
def recorded (sent : List (ℕ × ℕ)) : Table ℤ ℤ :=
  sent.foldl (fun t r => upsertUploadChunk t r.1 r.2) Table.empty

/-- The rows a flush of the session would leave. -/
def Session.flushed (s : Session) : Table ℤ ℤ :=
  match s.pending with
  | none => s.chunks
  | some p => p.chunks.foldl (fun t r => upsertUploadChunk t r.1 r.2) s.chunks

/-! ### What one write and one flush do -/

variable {s t : Session} {start : ℕ}

theorem flushPending_ok {txFails : Bool}
    (h : flushPending txFails s = (.ok (), t)) : t.flushed = s.flushed ∧ t.size = s.size := by
  unfold flushPending at h
  cases hp : s.pending with
  | none =>
    simp only [hp] at h
    obtain ⟨-, rfl⟩ := h
    exact ⟨rfl, rfl⟩
  | some p =>
    cases txFails with
    | true => simp [hp] at h
    | false =>
      simp only [hp, Bool.false_eq_true, if_false] at h
      obtain ⟨-, rfl⟩ := h
      simp [Session.flushed, hp]

theorem flushSection_ok {i : Input} (h : flushSection i s = (.ok (), t)) :
    t.flushed = s.flushed ∧ t.size = s.size := by
  unfold flushSection at h
  split_ifs at h with hfound
  · cases h
  · exact flushPending_ok h

theorem notePending_flushed (start stop size prev : ℕ) (i : Input) (s : Session) :
    (notePending start stop size prev i s).2.flushed =
      upsertUploadChunk s.flushed start stop := by
  simp only [notePending, Session.flushed]
  cases hp : s.pending with
  | none => rfl
  | some p => simp [foldl_append]

theorem diskWrite_ok {i : Input} (h : diskWrite start stop i s = (.ok (), t)) :
    t.flushed = s.flushed ∧ t.size = s.size ∧ stop < 2 ^ 63 := by
  unfold diskWrite at h
  split at h
  · cases h
  · rename_i hbad
    simp only [Bool.or_eq_true, decide_eq_true_eq, not_or, not_le] at hbad
    cases h
    exact ⟨rfl, rfl, hbad.2⟩

theorem load_ok {i : Input} {s : Session} {r : ℕ × ℕ} (h : load i s = .ok r) :
    r = (s.size, s.current) := by
  unfold load at h
  split_ifs at h
  exact (Except.ok.inj h).symm

theorem chunkEnd_ok {len size : ℕ} (h : chunkEnd start len size = .ok stop) :
    stop = start + len ∧ stop ≤ size := by
  unfold chunkEnd at h
  split_ifs at h with hfit
  obtain rfl := Except.ok.inj h
  exact ⟨rfl, hfit.2⟩

/-- An accepted write puts its range on top of what a flush would record. -/
theorem writeChunk_ok {len received : ℕ} (h : (writeChunk start len).Runs s (.ok received) t) :
    t.flushed = upsertUploadChunk s.flushed start (start + len) ∧ t.size = s.size ∧
      start + len ≤ s.size ∧ start + len < 2 ^ 63 := by
  obtain ⟨r, s₁, hload, h⟩ := Prog.runs_bind_ok.mp h
  obtain ⟨i₁, hi₁⟩ := Prog.runs_tryAct.mp hload
  obtain ⟨hr, rfl⟩ := Prod.mk.inj hi₁
  obtain rfl := load_ok hr
  obtain ⟨stop, s₂, hend, h⟩ := Prog.runs_bind_ok.mp h
  obtain ⟨hend, rfl⟩ := Prog.runs_ofExcept.mp hend
  obtain ⟨rfl, hfit⟩ := chunkEnd_ok hend.symm
  obtain ⟨_, s₃, hdisk, h⟩ := Prog.runs_bind_ok.mp h
  obtain ⟨i₂, hi₂⟩ := Prog.runs_tryAct.mp hdisk
  obtain ⟨hflushed₃, hsize₃, hlt⟩ := diskWrite_ok hi₂
  obtain ⟨doFlush, s₄, hnote, h⟩ := Prog.runs_bind_ok.mp h
  obtain ⟨i₃, -, rfl⟩ := Prog.runs_act.mp hnote
  have hflushed₄ := notePending_flushed start (start + len) s₂.size s₂.current i₃ s₃
  rw [hflushed₃] at hflushed₄
  refine (?_ : _ ∧ _).imp_right fun hsize => ⟨hsize, hfit, hlt⟩
  cases doFlush with
  | true =>
    obtain ⟨_, s₅, hflush, h⟩ := Prog.runs_bind_ok.mp h
    obtain ⟨i₄, hi₄⟩ := Prog.runs_tryAct.mp hflush
    obtain ⟨hflushed₅, hsize₅⟩ := flushSection_ok hi₄
    obtain ⟨-, rfl⟩ := h
    exact ⟨hflushed₅.trans hflushed₄, hsize₅.trans hsize₃⟩
  | false =>
    obtain ⟨-, rfl⟩ := h
    exact ⟨hflushed₄, hsize₃⟩

theorem flushNow_ok {n : ℕ} (h : flushNow.Runs s (.ok n) t) :
    t.flushed = s.flushed ∧ t.size = s.size := by
  obtain ⟨_, s₁, hflush, -, rfl⟩ := Prog.runs_bind_ok.mp h
  obtain ⟨i, hi⟩ := Prog.runs_tryAct.mp hflush
  exact flushSection_ok hi

/-! ### What a whole sequence leaves -/

variable {sent : List (ℕ × ℕ)}

/-- Whatever the flushes, the rows are those of the ranges sent, put in one after the other. -/
theorem Sent.flushed_eq {size : ℕ} {s : Session} (h : Sent size sent s) : s.flushed = recorded sent ∧ s.size = size ∧
      ∀ r ∈ sent, r.1 ≤ r.2 ∧ r.2 ≤ size ∧ r.2 < 2 ^ 63 := by
  induction h with
  | create => exact ⟨rfl, rfl, fun r hr => absurd hr not_mem_nil⟩
  | @write sent s t start len received _ accepted ih =>
    obtain ⟨hrows, hsize, hin⟩ := ih
    obtain ⟨hrows', hsize', hfit, hlt⟩ := writeChunk_ok accepted
    refine ⟨?_, hsize'.trans hsize, fun r hr => ?_⟩
    · rw [hrows', hrows, recorded, recorded, foldl_append]
      rfl
    · rcases mem_append.mp hr with hr | hr
      · exact hin r hr
      · obtain rfl := mem_singleton.mp hr
        exact ⟨Nat.le_add_right _ _, hsize ▸ hfit, hlt⟩
  | flush _ flushed ih =>
    obtain ⟨hrows, hsize⟩ := flushNow_ok flushed
    exact ⟨hrows.trans ih.1, hsize.trans ih.2.1, ih.2.2⟩

theorem lastEnd_append (sent : List (ℕ × ℕ)) (r : ℕ × ℕ) (start : ℕ) :
    lastEnd (sent ++ [r]) start = if start = r.1 then some r.2 else lastEnd sent start := by
  rw [lastEnd, reverse_append, reverse_singleton, singleton_append, lookup_cons]
  by_cases h : start = r.1
  · simp [h]
  · simp [beq_eq_false_iff_ne.mpr h, h, lastEnd]

/-- The rows, read off the ranges: at each start the end that was sent last. -/
theorem get?_recorded (hin : ∀ r ∈ sent, r.1 ≤ r.2 ∧ r.2 < 2 ^ 63) (k v : ℤ) : (recorded sent).get? k = some v ↔
      ∃ start stop : ℕ, k = start ∧ v = stop ∧ lastEnd sent start = some stop := by
  induction sent using reverseRecOn with
  | nil => simp [recorded, lastEnd]
  | append_singleton sent r ih =>
    obtain ⟨hr, hr'⟩ := hin r (mem_append_right _ mem_cons_self)
    have ih := ih fun r' hr' => hin r' (mem_append_left _ hr')
    have hput : recorded (sent ++ [r]) = (recorded sent).put r.1 r.2 := by
      rw [recorded, foldl_append]
      simp only [foldl_cons, foldl_nil, upsertUploadChunk, asI64_of_lt (hr.trans_lt hr'), asI64_of_lt hr']
      rfl
    rw [hput, get?_put]
    by_cases hk : k = (r.1 : ℤ)
    · rw [if_pos hk]
      constructor
      · rintro hv
        exact ⟨r.1, r.2, hk, (Option.some.inj hv).symm, by rw [lastEnd_append, if_pos rfl]⟩
      · rintro ⟨start, stop, rfl, rfl, hlast⟩
        rw [lastEnd_append, if_pos (by exact_mod_cast hk)] at hlast
        rw [Option.some.inj hlast]
    · rw [if_neg hk, ih]
      refine exists_congr fun start => exists_congr fun stop => and_congr_right fun hstart => ?_
      rw [lastEnd_append, if_neg (by rintro rfl; exact hk hstart)]

theorem lastEnd_mem (h : lastEnd sent start = some stop) :
    (start, stop) ∈ sent := by
  induction sent using reverseRecOn with
  | nil => cases h
  | append_singleton sent r ih =>
    rw [lastEnd_append] at h
    split_ifs at h with hr
    · cases h
      exact mem_append_right _ (mem_singleton.mpr (Prod.ext hr rfl))
    · exact mem_append_left _ (ih h)

theorem exists_lastEnd (h : (start, stop) ∈ sent) :
    ∃ stop', lastEnd sent start = some stop' := by
  induction sent using reverseRecOn with
  | nil => cases h
  | append_singleton sent r ih =>
    rw [lastEnd_append]
    split_ifs with hr
    · exact ⟨_, rfl⟩
    · rcases mem_append.mp h with h | h
      · exact ih h
      · exact absurd (congrArg Prod.fst (mem_singleton.mp h)) hr

/-- The sweep over the rows says exactly whether every byte is in a range that was sent last. -/
theorem uploadFullyCovered_recorded {size : ℕ} (hin : ∀ r ∈ sent, r.1 ≤ r.2 ∧ r.2 < 2 ^ 63) :
    uploadFullyCovered (recorded sent) size = true ↔ ∀ b < size, Kept sent b := by
  have hmem : ∀ a b : ℕ, (a, b) ∈ listUploadChunks (recorded sent) ↔ lastEnd sent a = some b := by
    intro a b
    simp only [listUploadChunks, mem_map, mem_insertionSort, Prod.exists, Prod.mk.injEq, mem_rows, get?_recorded hin]
    constructor
    · rintro ⟨_, _, ⟨start, stop, rfl, rfl, hlast⟩, rfl, rfl⟩
      obtain ⟨h, h'⟩ := hin _ (lastEnd_mem hlast)
      rwa [asU64_natCast (h.trans_lt h'), asU64_natCast h']
    · intro hlast
      obtain ⟨h, h'⟩ := hin _ (lastEnd_mem hlast)
      exact ⟨a, b, ⟨a, b, rfl, rfl, hlast⟩, asU64_natCast (h.trans_lt h'), asU64_natCast h'⟩
  have hsorted : (listUploadChunks (recorded sent)).Pairwise fun a b => a.1 ≤ b.1 := by
    refine pairwise_map.mpr ((pairwise_insertionSort _ _).imp_of_mem ?_)
    rintro ⟨a, a'⟩ ⟨b, b'⟩ ha hb hab
    rw [mem_insertionSort, mem_rows, get?_recorded hin] at ha hb
    obtain ⟨start, stop, rfl, -, hlast⟩ := ha
    obtain ⟨start', stop', rfl, -, hlast'⟩ := hb
    obtain ⟨h, h'⟩ := hin _ (lastEnd_mem hlast)
    obtain ⟨k, k'⟩ := hin _ (lastEnd_mem hlast')
    rw [asU64_natCast (h.trans_lt h'), asU64_natCast (k.trans_lt k')]
    exact Int.ofNat_le.mp hab
  unfold uploadFullyCovered
  split_ifs with hsize
  · simp [hsize]
  · rw [Ranges.sweep_eq_true_iff hsorted (Nat.pos_of_ne_zero hsize)]
    constructor
    · intro h b hb
      obtain ⟨⟨start, stop⟩, hr, hle, hlt⟩ := h b (Nat.zero_le b) hb
      exact ⟨start, stop, (hmem _ _).mp hr, hle, hlt⟩
    · intro h b _ hb
      obtain ⟨start, stop, hlast, hle, hlt⟩ := h b hb
      exact ⟨(start, stop), (hmem _ _).mpr hlast, hle, hlt⟩

/-- Coverage is exact for a flushed session just when no byte of a covered upload was lost to a
shorter write at the same start. -/
theorem uploadFullyCovered_exact_iff {size : ℕ} {sent : List (ℕ × ℕ)} {s : Session}
    (h : Sent size sent s) (hflushed : s.pending = none) :
    (uploadFullyCovered s.chunks size = true ↔ Ranges.Covers sent 0 size) ↔
      (Ranges.Covers sent 0 size → ∀ b < size, CutOff sent b → Kept sent b) := by
  obtain ⟨hrows, -, hin⟩ := h.flushed_eq
  have hchunks : s.chunks = recorded sent := by
    rw [← hrows, Session.flushed, hflushed]
  rw [hchunks, uploadFullyCovered_recorded fun r hr => ⟨(hin r hr).1, (hin r hr).2.2⟩]
  constructor
  · intro hiff hcov b hb _
    exact hiff.mpr hcov b hb
  · intro hrescued
    constructor
    · intro hkept b _ hb
      obtain ⟨start, stop, hlast, hle, hlt⟩ := hkept b hb
      exact ⟨(start, stop), lastEnd_mem hlast, hle, hlt⟩
    · intro hcov b hb
      obtain ⟨⟨start, stop⟩, hr, hle, hlt⟩ := hcov b (Nat.zero_le b) hb
      obtain ⟨short, hlast⟩ := exists_lastEnd hr
      by_cases hshort : b < short
      · exact ⟨start, short, hlast, hle, hshort⟩
      · exact hrescued hcov b hb ⟨start, stop, short, hr, hlast, Nat.not_lt.mp hshort, hlt⟩

/-- A quiet outside: the clock stands still and nothing fails. -/
def calm : Input := ⟨0, true, false, false⟩

theorem sent_whole : ∃ s, Sent 10 [(0, 10)] s ∧ s.pending = none ∧ s.chunks.rows = [(0, 10)] := by
  have hrun : (writeChunk 0 10).Runs (create 10) (.ok 10) ⟨10, 10, true, ⟨[(0, 10)], by simp⟩, none, 10⟩ :=
    ⟨calm, calm, calm, calm, rfl, rfl⟩
  exact ⟨_, .write .create hrun, rfl, rfl⟩

theorem uploadFullyCovered_exact_whole : ∃ s, Sent 10 [(0, 10)] s ∧ s.pending = none ∧
    ((uploadFullyCovered s.chunks 10 = true ↔ Ranges.Covers [(0, 10)] 0 10) ↔
      (Ranges.Covers [(0, 10)] 0 10 → ∀ b < 10, CutOff [(0, 10)] b → Kept [(0, 10)] b)) := by
  obtain ⟨s, hsent, hpending, -⟩ := sent_whole
  exact ⟨s, hsent, hpending, uploadFullyCovered_exact_iff hsent hpending⟩

/-- Ten bytes are sent, then the first five of them again: the upload no longer counts as covered. -/
theorem covered_upload_uncovered_by_resend : ∃ s, Sent 10 [(0, 10), (0, 5)] s ∧ s.pending = none ∧
    Ranges.Covers [(0, 10), (0, 5)] 0 10 ∧ uploadFullyCovered s.chunks 10 = false := by
  have hfirst : (writeChunk 0 10).Runs (create 10) (.ok 10)
      ⟨10, 10, true, ⟨[(0, 10)], by simp⟩, none, 10⟩ := ⟨calm, calm, calm, calm, rfl, rfl⟩
  have hsecond : (writeChunk 0 5).Runs ⟨10, 10, true, ⟨[(0, 10)], by simp⟩, none, 10⟩ (.ok 10)
      ⟨10, 10, true, ⟨[(0, 5)], by simp⟩, none, 10⟩ := ⟨calm, calm, calm, calm, rfl, rfl⟩
  refine ⟨_, .write (.write .create hfirst) hsecond, rfl, ?_, rfl⟩
  intro b _ hb
  exact ⟨(0, 10), mem_cons_self, Nat.zero_le b, hb⟩

end LibreServ.Uploads
