import LibreServ.BuildGraphChecks
import LibreServ.History

/-! What the scheduler's counts, its ready list and its events say about the statuses, and what every single change
of a status keeps of it. -/

namespace LibreServ.BuildGraph

open List

variable {g : Graph} {s s' : Run} {i k : ℕ} {st : Status} {err : Option JobError}

/-- Has run, or runs. -/
def Status.Begun : Status → Bool
  | .pending => false
  | .running => true
  | .succeeded => true
  | .failed => true
  | .cancelled => true
  | .skipped => false

/-- Final, and not a success. -/
def Status.Broken : Status → Bool
  | .failed => true
  | .cancelled => true
  | .skipped => true
  | _ => false

/-- The final statuses a job has reached, in order. -/
def Run.outcomes (s : Run) (i : ℕ) : List Status :=
  s.trace.filterMap fun
    | .finished k st => if k = i then some st else none
    | _ => none

theorem Run.mem_of_outcomes (h : st ∈ s.outcomes i) : .finished i st ∈ s.trace := by
  obtain ⟨m, hm, heq⟩ := mem_filterMap.mp h
  cases m with
  | finished k st' =>
    by_cases hk : k = i
    · simp [hk] at heq
      rw [← hk, ← heq]
      exact hm
    · simp [hk] at heq
  | _ => simp at heq

namespace Graph

/-- How many jobs there are of a kind. -/
def number (g : Graph) (p : ℕ → Prop) [DecidablePred p] : ℤ := ((Finset.range g.size).filter p).card

section Counting

variable {p q : ℕ → Prop} [DecidablePred p] [DecidablePred q]

theorem number_congr (h : ∀ k, p k ↔ q k) : g.number p = g.number q := by
  rw [number, number, Finset.filter_congr fun k _ => h k]

theorem number_add_one (hi : i < g.size) (hp : ¬ p i) (hq : q i) (hsame : ∀ k, k ≠ i → (p k ↔ q k)) :
    g.number q = g.number p + 1 := by
  have hinsert : (Finset.range g.size).filter q = insert i ((Finset.range g.size).filter p) := by
    ext k
    by_cases hk : k = i
    · simp [hk, hi, hq]
    · simp [hk, hsame k hk]
  have hnot : i ∉ (Finset.range g.size).filter p := by simp [hp]
  rw [number, number, hinsert, Finset.card_insert_of_notMem hnot, Nat.cast_add, Nat.cast_one]

/-- Where one job changes. -/
theorem number_set (hi : i < g.size) (hsame : ∀ k, k ≠ i → (p k ↔ q k)) :
    g.number q = g.number p - (if p i then 1 else 0) + if q i then 1 else 0 := by
  by_cases hiff : p i ↔ q i
  · have hall : ∀ k, p k ↔ q k := fun k => if hk : k = i then hk ▸ hiff else hsame k hk
    simp only [number_congr hall, hiff]
    omega
  by_cases hp : p i
  · have hq : ¬ q i := fun hq => hiff ⟨fun _ => hq, fun _ => hp⟩
    rw [number_add_one hi hq hp fun k hk => (hsame k hk).symm, if_pos hp, if_neg hq]
    omega
  · have hq : q i := by_contra fun hq => hiff ⟨fun h => absurd h hp, fun h => absurd h hq⟩
    rw [number_add_one hi hp hq hsame, if_neg hp, if_pos hq]
    omega

theorem number_nonneg : 0 ≤ g.number p := Int.natCast_nonneg _

theorem number_le_size : g.number p ≤ g.size := by
  have hle := Finset.card_filter_le (Finset.range g.size) p
  rw [Finset.card_range] at hle
  exact Nat.cast_le.mpr hle

theorem number_mono (h : ∀ k, p k → q k) : g.number p ≤ g.number q := by
  apply Nat.cast_le.mpr
  apply Finset.card_le_card
  intro k hk
  rw [Finset.mem_filter] at hk ⊢
  exact ⟨hk.1, h k hk.2⟩

theorem exists_of_number_pos (h : 0 < g.number p) : ∃ k < g.size, p k := by
  obtain ⟨k, hk⟩ := Finset.card_pos.mp (Int.natCast_pos.mp h)
  rw [Finset.mem_filter, Finset.mem_range] at hk
  exact ⟨k, hk.1, hk.2⟩

theorem number_pos (hi : i < g.size) (hp : p i) : 0 < g.number p :=
  Int.natCast_pos.mpr (Finset.card_pos.mpr ⟨i, Finset.mem_filter.mpr ⟨Finset.mem_range.mpr hi, hp⟩⟩)

/-- All jobs are of a kind if as many are as there are jobs. -/
theorem of_number_eq_size (h : (g.size : ℤ) ≤ g.number p) (hi : i < g.size) : p i := by
  have hcard : (Finset.range g.size).card ≤ ((Finset.range g.size).filter p).card := by
    rw [Finset.card_range]
    exact Nat.cast_le.mp h
  have hall := Finset.eq_of_subset_of_card_le (Finset.filter_subset p _) hcard
  have hmem : i ∈ (Finset.range g.size).filter p := by
    rw [hall]
    exact Finset.mem_range.mpr hi
  exact (Finset.mem_filter.mp hmem).2

theorem size_le_number (h : ∀ k < g.size, p k) : (g.size : ℤ) ≤ g.number p := by
  have hall : (Finset.range g.size).filter p = Finset.range g.size :=
    Finset.filter_true_of_mem fun k hk => h k (Finset.mem_range.mp hk)
  rw [number, hall, Finset.card_range]

end Counting

/-- The scheduler's counts are those of the statuses, and so are the events. -/
structure Tallied (g : Graph) (s : Run) : Prop where
  outside : ∀ k, g.size ≤ k → s.status k = .pending
  running : s.running = g.number fun k => s.status k = .running
  heavy : s.runningHeavy = g.number fun k => g.heavy k = true ∧ s.status k = .running
  final : s.final = g.number fun k => (s.status k).Done = true
  outcomes : ∀ k, s.outcomes k = if (s.status k).Done then [s.status k] else []
  begun : ∀ k, .started k ∈ s.trace ↔ (s.status k).Begun = true
  stopped : s.stopping = true ↔ .stopped ∈ s.trace

theorem finish_self : (s.finish i st err).status i = st := Function.update_self ..

theorem finish_of_ne (hk : k ≠ i) : (s.finish i st err).status k = s.status k := Function.update_of_ne hk ..

theorem outcomes_finish (htrace : s'.trace = s.trace ++ [.finished i st]) :
    s'.outcomes k = s.outcomes k ++ if i = k then [st] else [] := by
  rw [Run.outcomes, htrace]
  by_cases hk : i = k
  · simp [hk, Run.outcomes]
  · simp [hk, Run.outcomes]

theorem outcomes_other {m : Mark} (h : ∀ k st, m ≠ .finished k st) (htrace : s'.trace = s.trace ++ [m]) :
    s'.outcomes k = s.outcomes k := by
  rw [Run.outcomes, htrace, Run.outcomes]
  cases m <;> simp_all

/-- A job takes another status. -/
theorem Tallied.set (h : g.Tallied s) (hi : i < g.size) (hold : (s.status i).Done = false)
    (hstatus : s'.status = Function.update s.status i st)
    (hrunning : s'.running = s.running - (if s.status i = .running then 1 else 0) + if st = .running then 1 else 0)
    (hheavy : s'.runningHeavy = if g.heavy i = true then
      s.runningHeavy - (if s.status i = .running then 1 else 0) + (if st = .running then 1 else 0) else s.runningHeavy)
    (hfinal : s'.final = s.final + if st.Done = true then 1 else 0) (hstop : s'.stopping = s.stopping)
    (htrace : s'.trace = s.trace ++ [.finished i st] ∧ st.Done = true ∧ st.Begun = (s.status i).Begun ∨
      s'.trace = s.trace ++ [.started i] ∧ st = .running) : g.Tallied s' := by
  have hsame (k : ℕ) (hk : k ≠ i) : s'.status k = s.status k := by rw [hstatus, Function.update_of_ne hk]
  have hnew : s'.status i = st := by rw [hstatus, Function.update_self]
  constructor
  · intro k hk
    rw [hsame k (by omega)]
    exact h.outside k hk
  · have hcount := number_set (p := fun k => s.status k = .running) (q := fun k => s'.status k = .running) hi
      fun k hk => by rw [hsame k hk]
    rw [hcount, hrunning, h.running, hnew]
  · have hcount := number_set (p := fun k => g.heavy k = true ∧ s.status k = .running)
      (q := fun k => g.heavy k = true ∧ s'.status k = .running) hi fun k hk => by rw [hsame k hk]
    rw [hcount, hheavy, h.heavy]
    by_cases hheavy : g.heavy i = true
    · simp [hheavy, hnew]
    · simp [hheavy]
  · have hcount := number_set (p := fun k => (s.status k).Done = true) (q := fun k => (s'.status k).Done = true) hi
      fun k hk => by rw [hsame k hk]
    rw [hcount, hfinal, h.final, hnew, hold]
    simp
  · intro k
    rcases htrace with ⟨htrace, hdone, -⟩ | ⟨htrace, rfl⟩
    · rw [outcomes_finish htrace, h.outcomes k]
      by_cases hk : k = i
      · simp [hk, hnew, hdone, hold]
      · simp [Ne.symm hk, hsame k hk]
    · rw [outcomes_other (m := .started i) (by simp) htrace, h.outcomes k]
      by_cases hk : k = i
      · rw [hk, hold, hnew]
        rfl
      · rw [hsame k hk]
  · intro k
    rcases htrace with ⟨htrace, -, hbegun⟩ | ⟨htrace, rfl⟩
    · rw [htrace, mem_append, h.begun k]
      by_cases hk : k = i
      · simp [hk, hnew, hbegun]
      · simp [hsame k hk]
    · rw [htrace, mem_append, h.begun k]
      by_cases hk : k = i
      · simp [hk, hnew, Status.Begun]
      · simp [hk, hsame k hk]
  · rw [hstop, h.stopped]
    rcases htrace with ⟨htrace, -⟩ | ⟨htrace, -⟩ <;> simp [htrace]

theorem Tallied.skip (h : g.Tallied s) (hi : i < g.size) (hp : s.status i = .pending) :
    g.Tallied (s.finish i .skipped err) := by
  apply h.set hi (by rw [hp]; rfl) rfl
  · simp [Run.finish, hp]
  · simp [Run.finish, hp]
  · rfl
  · rfl
  · exact .inl ⟨rfl, rfl, by rw [hp]; rfl⟩

theorem Tallied.launch (h : g.Tallied s) (hi : i < g.size) (hp : s.status i = .pending) :
    g.Tallied (g.launch s i) := by
  apply h.set hi (by rw [hp]; rfl) rfl
  · simp [Graph.launch, hp]
  · simp [Graph.launch, hp]
  · simp [Graph.launch, Status.Done]
  · rfl
  · exact .inr ⟨rfl, rfl⟩

/-- A running job's end is taken. -/
def close (g : Graph) (i : ℕ) (st : Status) (err : Option JobError) (s : Run) : Run :=
  ({ s with
    phase := .top
    running := s.running - 1
    runningHeavy := if g.heavy i then s.runningHeavy - 1 else s.runningHeavy } : Run).finish i st err

section

variable (h : g.Tallied s)

include h

theorem Tallied.close (hi : i < g.size) (hr : s.status i = .running) (hdone : st.Done = true)
    (hbegun : st.Begun = true) : g.Tallied (g.close i st err s) := by
  have hst : st ≠ .running := by
    rintro rfl
    cases hdone
  apply h.set hi (by rw [hr]; rfl) rfl
  · simp [Graph.close, Run.finish, hr, hst]
  · simp [Graph.close, Run.finish, hr, hst]
  · simp [Graph.close, Run.finish, hdone]
  · rfl
  · exact .inl ⟨rfl, hdone, by rw [hr, hbegun]; rfl⟩

theorem Tallied.stop : g.Tallied s.stop := by
  refine ⟨h.outside, h.running, h.heavy, h.final, ?_, ?_, ?_⟩
  · intro k
    rw [outcomes_other (m := .stopped) (by simp) rfl]
    exact h.outcomes k
  · intro k
    rw [Run.stop, mem_append, h.begun k]
    simp
  · simp [Run.stop]

theorem Tallied.endGraph : g.Tallied s.endGraph := by
  refine ⟨h.outside, h.running, h.heavy, h.final, ?_, ?_, ?_⟩
  · intro k
    rw [outcomes_other (m := .graphDone) (by simp) rfl]
    exact h.outcomes k
  · intro k
    rw [Run.endGraph, mem_append, h.begun k]
    simp
  · rw [Run.endGraph, h.stopped]
    simp

/-- What neither statuses, counts nor events mention may change. -/
theorem Tallied.same (hstatus : s'.status = s.status) (hrunning : s'.running = s.running)
    (hheavy : s'.runningHeavy = s.runningHeavy) (hfinal : s'.final = s.final) (htrace : s'.trace = s.trace)
    (hstop : s'.stopping = s.stopping) : g.Tallied s' := by
  have houtcomes (k : ℕ) : s'.outcomes k = s.outcomes k := by rw [Run.outcomes, htrace, Run.outcomes]
  constructor
  · rw [hstatus]
    exact h.outside
  · rw [hstatus, hrunning]
    exact h.running
  · rw [hstatus, hheavy]
    exact h.heavy
  · rw [hstatus, hfinal]
    exact h.final
  · intro k
    rw [hstatus, houtcomes]
    exact h.outcomes k
  · rw [hstatus, htrace]
    exact h.begun
  · rw [hstop, htrace]
    exact h.stopped

end

/-- What has to come before an event: a job starts after its dependencies have succeeded, and not in a run that was
stopped. -/
def allowed (g : Graph) (before : List Mark) : Mark → Prop
  | .started i => (∀ d ∈ g.deps i, .finished d .succeeded ∈ before) ∧ .stopped ∉ before
  | _ => True

end Graph

end LibreServ.BuildGraph
