import LibreServ.BuildGraphWaits

/-! Runs of the build graph. Whatever the jobs return, in whatever order they end and whenever the run is cancelled,
it comes to an end with one final status for each job. -/

namespace LibreServ.BuildGraph.Graph

open List Function

variable {g : Graph} {opts : Options} {s s' t : Run} {i k m : ℕ} {st : Status} {err : Option JobError}
  {cause : JobError} {rest : List ℕ}

/-- What holds between any two changes. -/
structure Sound (g : Graph) (opts : Options) (s : Run) : Prop where
  tallied : g.Tallied s
  proper : History.Proper g.allowed s.trace
  begun : ∀ k, (s.status k).Begun = true → ∀ d ∈ g.deps k, s.status d = .succeeded
  why : ∀ k, s.status k = .skipped → s.stopping = true ∨ g.Blocked s k
  cap : s.running ≤ opts.jobs
  heavyCap : s.runningHeavy ≤ opts.heavyJobs

section

variable (h : g.Sound opts s)
include h

theorem Sound.skip (hk : k < g.size) (hp : s.status k = .pending)
    (hwhy : s.stopping = true ∨ g.Blocked s k) : g.Sound opts (s.finish k .skipped err) := by
  refine ⟨h.tallied.skip hk hp, h.proper.snoc trivial, ?_, ?_, h.cap, h.heavyCap⟩
  · intro m hm d hd
    by_cases hmk : m = k
    · rw [hmk, finish_self] at hm
      cases hm
    rw [finish_of_ne hmk] at hm
    have hsucc := h.begun m hm d hd
    by_cases hdk : d = k
    · rw [hdk, hp] at hsucc
      cases hsucc
    · rw [finish_of_ne hdk]
      exact hsucc
  · intro m hm
    have hold : s.stopping = true ∨ g.Blocked s m := by
      by_cases hmk : m = k
      · rw [hmk]
        exact hwhy
      · rw [finish_of_ne hmk] at hm
        exact h.why m hm
    exact hold.imp_right fun hblocked => hblocked.of_le fun j => broken_finish hp

theorem Sound.launch (hk : k < g.size) (hp : s.status k = .pending)
    (hdeps : ∀ d ∈ g.deps k, s.status d = .succeeded) (hstop : s.stopping = false) (hcap : s.running < opts.jobs)
    (hheavy : g.heavy k = true → s.runningHeavy < opts.heavyJobs) : g.Sound opts (g.launch s k) := by
  have hself : (g.launch s k).status k = .running := update_self ..
  have hne (m : ℕ) (hm : m ≠ k) : (g.launch s k).status m = s.status m := update_of_ne hm ..
  have hsucc (d : ℕ) (hd : s.status d = .succeeded) : (g.launch s k).status d = .succeeded := by
    rw [hne d, hd]
    rintro rfl
    rw [hp] at hd
    cases hd
  constructor
  · exact h.tallied.launch hk hp
  · apply h.proper.snoc
    refine ⟨fun d hd => Run.mem_of_outcomes ?_, fun hmem => ?_⟩
    · rw [h.tallied.outcomes, hdeps d hd]
      exact mem_singleton_self _
    · rw [h.tallied.stopped.mpr hmem] at hstop
      cases hstop
  · intro m hm d hd
    by_cases hmk : m = k
    · exact hsucc d (hdeps d (hmk ▸ hd))
    · rw [hne m hmk] at hm
      exact hsucc d (h.begun m hm d hd)
  · intro m hm
    by_cases hmk : m = k
    · rw [hmk, hself] at hm
      cases hm
    rw [hne m hmk] at hm
    refine (h.why m hm).imp_right fun hblocked => hblocked.of_le fun j hj => ?_
    rw [hne j]
    · exact hj
    · rintro rfl
      rw [hp] at hj
      cases hj
  · change s.running + 1 ≤ opts.jobs
    omega
  · change (if g.heavy k = true then s.runningHeavy + 1 else s.runningHeavy) ≤ opts.heavyJobs
    split
    · rename_i hh
      have hless := hheavy hh
      omega
    · exact h.heavyCap

theorem Sound.close (hk : k < g.size) (hr : s.status k = .running) (hdone : st.Done = true)
    (hbegun : st.Begun = true) : g.Sound opts (g.close k st err s) := by
  have hself : (g.close k st err s).status k = st := update_self ..
  have hne (m : ℕ) (hm : m ≠ k) : (g.close k st err s).status m = s.status m := update_of_ne hm ..
  have hother (m : ℕ) (hm : s.status m ≠ .running) : (g.close k st err s).status m = s.status m := by
    apply hne
    rintro rfl
    exact hm hr
  constructor
  · exact h.tallied.close hk hr hdone hbegun
  · exact h.proper.snoc trivial
  · intro m hm d hd
    have hsucc : s.status d = .succeeded := by
      by_cases hmk : m = k
      · rw [hmk] at hd
        exact h.begun k (by rw [hr]; rfl) d hd
      · rw [hne m hmk] at hm
        exact h.begun m hm d hd
    rw [hother d (by simp [hsucc]), hsucc]
  · intro m hm
    have hold : s.status m = .skipped := by
      by_cases hmk : m = k
      · rw [hmk, hself] at hm
        rw [hm] at hbegun
        cases hbegun
      · rwa [hne m hmk] at hm
    refine (h.why m hold).imp_right fun hblocked => hblocked.of_le fun j hj => ?_
    rw [hother j]
    · exact hj
    · intro hrun
      rw [hrun] at hj
      cases hj
  · change s.running - 1 ≤ opts.jobs
    have hle := h.cap
    omega
  · change (if g.heavy k = true then s.runningHeavy - 1 else s.runningHeavy) ≤ opts.heavyJobs
    have hle := h.heavyCap
    split <;> omega

theorem Sound.stop : g.Sound opts s.stop :=
  ⟨h.tallied.stop, h.proper.snoc trivial, h.begun, fun _ _ => .inl rfl, h.cap, h.heavyCap⟩

theorem Sound.endGraph : g.Sound opts s.endGraph :=
  ⟨h.tallied.endGraph, h.proper.snoc trivial, h.begun, h.why, h.cap, h.heavyCap⟩

theorem Sound.same (hstatus : s'.status = s.status) (hrunning : s'.running = s.running)
    (hheavy : s'.runningHeavy = s.runningHeavy) (hfinal : s'.final = s.final) (htrace : s'.trace = s.trace)
    (hstop : s'.stopping = s.stopping) : g.Sound opts s' := by
  refine ⟨h.tallied.same hstatus hrunning hheavy hfinal htrace hstop, ?_, ?_, ?_, ?_, ?_⟩
  · rw [htrace]
    exact h.proper
  · rw [hstatus]
    exact h.begun
  · intro k hk
    rw [hstatus] at hk
    rw [hstop]
    exact (h.why k hk).imp_right fun hblocked => hblocked.of_le fun j hj => by rwa [hstatus]
  · rw [hrunning]
    exact h.cap
  · rw [hheavy]
    exact h.heavyCap

end

/-- Nothing waits for a job that will never succeed. -/
def Shut (g : Graph) (s : Run) : Prop := ∀ k, (s.status k).Broken = true → g.ShutAt s k

/-- What holds at the head of the loop, while it waits, and at its end. -/
structure Inv (g : Graph) (opts : Options) (s : Run) : Prop extends Sound g opts s where
  waits : g.Waits [] [] s
  shut : g.Shut s
  busy : s.phase = .waiting → 0 < s.running
  complete : s.phase = .ended → (g.size : ℤ) ≤ s.final

theorem Shut.mono (h : g.Shut s) (hbroken : ∀ k, (s'.status k).Broken = true → (s.status k).Broken = true)
    (hpend : ∀ m, s'.status m = .pending → s.status m = .pending) : g.Shut s' :=
  fun k hk m hm hp => h k (hbroken k hk) m hm (hpend m hp)

/-- In a run that is being stopped no job is to be started. -/
theorem Waits.same (h : g.Waits [] [] s) (hstatus : s'.status = s.status) (hremaining : s'.remaining = s.remaining)
    (hlist : s'.ready = s.ready) (hstop : s'.stopping = false → s.stopping = false) : g.Waits [] [] s' := by
  constructor
  · intro k
    rw [hstatus, hremaining]
    exact h.remaining k
  · intro k hk
    rw [hlist] at hk
    rw [hstatus, hremaining]
    exact h.ready k hk
  · rw [hlist]
    exact h.nodup
  · exact h.places
  · intro hs k hk hp hzero
    rw [hstatus] at hp
    rw [hremaining] at hzero
    rw [hlist]
    exact h.waiting (hstop hs) k hk hp hzero

/-! ### A job's end -/

theorem settleAll_same (l : List ℕ) (s : Run) :
    (l.foldl Run.settle s).status = s.status ∧ (l.foldl Run.settle s).running = s.running ∧
      (l.foldl Run.settle s).runningHeavy = s.runningHeavy ∧ (l.foldl Run.settle s).final = s.final ∧
        (l.foldl Run.settle s).trace = s.trace ∧ (l.foldl Run.settle s).stopping = s.stopping ∧
          (l.foldl Run.settle s).phase = s.phase := by
  apply Loops.foldl_keeps (P := fun t : Run => t.status = s.status ∧ t.running = s.running ∧
    t.runningHeavy = s.runningHeavy ∧ t.final = s.final ∧ t.trace = s.trace ∧ t.stopping = s.stopping ∧
      t.phase = s.phase)
  · intro k _ t ht
    rw [settle_eq]
    exact ht
  · exact ⟨rfl, rfl, rfl, rfl, rfl, rfl, rfl⟩

section

variable (h : g.Inv opts s)

include h

/-- A job succeeds. -/
theorem Inv.succeed (hi : i < g.size) (hr : s.status i = .running) :
    let t := (g.dependents i).foldl Run.settle (g.close i .succeeded none s)
    g.Inv opts t ∧ t.phase = .top ∧ t.final = s.final + 1 := by
  obtain ⟨hstatus, hrunning, hheavy, hfinal, htrace, hstop, hphase⟩ :=
    settleAll_same (g.dependents i) (g.close i .succeeded none s)
  intro t
  have htop : t.phase = .top := hphase
  have hself : (g.close i .succeeded none s).status i = .succeeded := update_self ..
  have hne (m : ℕ) (hm : m ≠ i) : (g.close i .succeeded none s).status m = s.status m := update_of_ne hm ..
  have hclosed : g.Sound opts (g.close i .succeeded none s) := h.toSound.close hi hr rfl rfl
  refine ⟨⟨hclosed.same hstatus hrunning hheavy hfinal htrace hstop, (h.waits.succeed hr).settleAll, ?_, ?_, ?_⟩,
    htop, hfinal⟩
  · apply h.shut.mono
    · intro k hk
      rw [hstatus] at hk
      by_cases hki : k = i
      · rw [hki, hself] at hk
        cases hk
      · rwa [hne k hki] at hk
    · intro m hm
      rw [hstatus] at hm
      by_cases hmi : m = i
      · rw [hmi, hself] at hm
        cases hm
      · rwa [hne m hmi] at hm
  · intro hwait
    rw [htop] at hwait
    cases hwait
  · intro hend
    rw [htop] at hend
    cases hend

/-- A job comes to another end, and what depends on it is skipped. -/
theorem Inv.lose (hi : i < g.size) (hr : s.status i = .running) (st : Status)
    (err : Option JobError) (cause : JobError) (hbroken : st.Broken = true) (hbegun : st.Begun = true) :
    let t := (g.dependents i).foldl (fun s d => g.skip g.size d cause s) (g.close i st err s)
    g.Inv opts t ∧ t.phase = .top ∧ s.final < t.final := by
  have hdone : st.Done = true := by cases st <;> simp_all [Status.Broken, Status.Done]
  have hsucc : st ≠ .succeeded := by
    rintro rfl
    cases hbroken
  have hpend : st ≠ .pending := by
    rintro rfl
    cases hbroken
  have hself : (g.close i st err s).status i = st := update_self ..
  have hne (m : ℕ) (hm : m ≠ i) : (g.close i st err s).status m = s.status m := update_of_ne hm ..
  have hready : i ∉ s.ready := by
    intro hmem
    have hp := (h.waits.ready i (mem_append_left _ hmem)).2.1
    rw [hr] at hp
    cases hp
  intro t
  -- What skipping a blocked job keeps.
  have hkept : g.Sound opts t ∧ g.Waits [] [] t ∧ (t.status i).Broken = true ∧ t.phase = .top ∧ s.final < t.final := by
    apply Loops.foldl_keeps (P := fun t : Run => g.Sound opts t ∧ g.Waits [] [] t ∧ (t.status i).Broken = true ∧
      t.phase = .top ∧ s.final < t.final)
    · intro d hd t ht
      have hdep : i ∈ g.deps d := mem_dependents.mp hd
      apply skip_keeps_blocked (P := fun t : Run => g.Sound opts t ∧ g.Waits [] [] t ∧ (t.status i).Broken = true ∧
        t.phase = .top ∧ s.final < t.final) (lt_of_mem_deps hdep) ⟨i, hdep, ht.2.2.1⟩ _ ht
      rintro u k ⟨hsound, hwaits, hbr, hph, hfin⟩ hp hk hblocked
      refine ⟨hsound.skip hk hp (.inr hblocked), ?_, broken_finish hp hbr, hph, Int.lt_add_one_of_le hfin.le⟩
      exact hwaits.lose (by simp [hp]) (by simp) (by simp) (hwaits.not_ready hblocked) rfl rfl rfl rfl
    · refine ⟨h.toSound.close hi hr hdone hbegun, ?_, by rw [hself]; exact hbroken, rfl, Int.lt_succ _⟩
      exact h.waits.lose (by simp [hr]) hsucc hpend hready rfl rfl rfl rfl
  obtain ⟨hsound, hwaits, -, hphase, hfinal⟩ := hkept
  have hdep (d : ℕ) (hd : d ∈ g.dependents i) : d < g.size := lt_of_mem_deps (mem_dependents.mp hd)
  have hskipped : ∀ k, t.status k = .skipped → (g.close i st err s).status k = .skipped ∨ g.ShutAt t k := by
    apply Loops.foldl_keeps (P := fun t : Run => ∀ k, t.status k = .skipped →
      (g.close i st err s).status k = .skipped ∨ g.ShutAt t k)
    · intro d hd t ht k hk
      rcases (skip_shuts (hdep d hd) number_le_size).2 k hk with hold | hshut
      · exact (ht k hold).imp_right fun hshut => hshut.skip (hdep d hd)
      · exact .inr hshut
    · exact fun k hk => .inl hk
  have hends : ∀ d ∈ g.dependents i, t.status d ≠ .pending := by
    apply Loops.foldl_each (P := fun _ : Run => True) (Q := fun d t => t.status d ≠ .pending)
    · exact fun _ _ _ _ => trivial
    · exact fun d hd t _ => (skip_shuts (hdep d hd) number_le_size).1
    · exact fun d hd m t _ hm => skip_not_pending (hdep d hd) hm
    · trivial
  have hbrokens : ∀ k, (t.status k).Broken = true →
      ((g.close i st err s).status k).Broken = true ∨ t.status k = .skipped := by
    apply Loops.foldl_keeps (P := fun t : Run => ∀ k, (t.status k).Broken = true →
      ((g.close i st err s).status k).Broken = true ∨ t.status k = .skipped)
    · intro d hd t ht
      apply skip_keeps (P := fun t : Run => ∀ k, (t.status k).Broken = true →
        ((g.close i st err s).status k).Broken = true ∨ t.status k = .skipped) (hdep d hd) _ ht
      intro u m hu _ _ k hk
      by_cases hkm : k = m
      · rw [hkm]
        exact .inr finish_self
      · rw [finish_of_ne hkm] at hk ⊢
        exact hu k hk
    · exact fun k hk => .inl hk
  -- What was shut before stays so.
  have hold (k : ℕ) (hk : k ≠ i) (hbr : (s.status k).Broken = true) : g.ShutAt t k := by
    apply Loops.foldl_keeps (P := fun t : Run => g.ShutAt t k)
    · exact fun d hd t ht => ht.skip (hdep d hd)
    · intro m hm
      by_cases hmi : m = i
      · rw [hmi, hself]
        exact hpend
      · rw [hne m hmi]
        exact h.shut k hbr m hm
  refine ⟨⟨hsound, hwaits, ?_, ?_, ?_⟩, hphase, hfinal⟩
  · intro k hk
    by_cases hki : k = i
    · rw [hki]
      exact fun m hm => hends m (mem_dependents.mpr hm)
    rcases hbrokens k hk with hbr | hskip
    · rw [hne k hki] at hbr
      exact hold k hki hbr
    · rcases hskipped k hskip with hwas | hshut
      · rw [hne k hki] at hwas
        exact hold k hki (by rw [hwas]; rfl)
      · exact hshut
  · intro hwait
    rw [hphase] at hwait
    cases hwait
  · intro hend
    rw [hphase] at hend
    cases hend

/-- The run is to be stopped. -/
theorem Inv.stop (htop : s.phase = .top) : g.Inv opts s.stop := by
  refine ⟨h.toSound.stop, h.waits.same rfl rfl rfl nofun, h.shut, ?_, ?_⟩
  · intro hwait
    have hphase : s.phase = .waiting := hwait
    rw [htop] at hphase
    cases hphase
  · intro hend
    have hphase : s.phase = .ended := hend
    rw [htop] at hphase
    cases hphase

theorem Inv.cancel : g.Inv opts { s with cancelled := true } :=
  ⟨h.toSound.same rfl rfl rfl rfl rfl rfl, h.waits.same rfl rfl rfl fun hs => hs, h.shut, h.busy, h.complete⟩

theorem Inv.receive (hi : i < g.size) (hr : s.status i = .running) (out : Outcome) :
    g.Inv opts (g.receive opts i out s) ∧ (g.receive opts i out s).phase = .top ∧
      s.final < (g.receive opts i out s).final := by
  cases out with
  | ok =>
    obtain ⟨hinv, htop, hfinal⟩ := h.succeed hi hr
    refine ⟨hinv, htop, ?_⟩
    change s.final < ((g.dependents i).foldl Run.settle (g.close i .succeeded none s)).final
    omega
  | err canceled =>
    rw [Graph.receive]
    dsimp only
    split
    · exact h.lose hi hr .cancelled _ _ rfl rfl
    · obtain ⟨hinv, htop, hfinal⟩ := h.lose hi hr .failed (some (.returned canceled))
        (.dependencyFailed (g.id i)) rfl rfl
      split
      · exact ⟨(hinv.stop htop).cancel, htop, hfinal⟩
      · exact ⟨hinv, htop, hfinal⟩

end

/-! ### From the loop's head to where it waits -/

/-- What holds when the loop has started what it can, or skipped what it must. -/
structure Turned (g : Graph) (opts : Options) (s t : Run) : Prop extends Sound g opts t where
  waits : g.Waits [] [] t
  shut : g.Shut t
  top : t.phase = .top
  grew : s.final ≤ t.final
  idle : t.running = 0 → (g.size : ℤ) ≤ t.final

/-- A run that is being stopped: what waits is skipped, so the ready list says nothing. -/
structure Stopped (g : Graph) (opts : Options) (s t : Run) : Prop extends Sound g opts t where
  stopping : t.stopping = true
  top : t.phase = .top
  grew : s.final ≤ t.final
  remaining : ∀ k, t.remaining k = (g.deps k).countP fun d => t.status d ≠ .succeeded

theorem Stopped.finish (h : g.Stopped opts s t) (hk : k < g.size) (hp : t.status k = .pending) :
    g.Stopped opts s (t.finish k .skipped err) := by
  refine ⟨h.toSound.skip hk hp (.inl h.stopping), h.stopping, h.top, ?_, ?_⟩
  · have hgrew := h.grew
    change s.final ≤ t.final + 1
    omega
  · intro m
    rw [countP_same]
    · exact h.remaining m
    · intro d
      by_cases hdk : d = k
      · rw [hdk, finish_self, hp]
        simp
      · rw [finish_of_ne hdk]

theorem Stopped.skip (h : g.Stopped opts s t) (hi : i < g.size) :
    g.Stopped opts s (if t.status i = .pending then g.skip g.size i cause t else t) := by
  split
  · exact skip_keeps (P := g.Stopped opts s) hi (fun _ _ ht hp hk => ht.finish hk hp) h
  · exact h

theorem skipAll_turned (h : g.Inv opts s) (htop : s.phase = .top) (hstop : s.stopping = true) :
    g.Turned opts s (g.skipAll s) := by
  have hstart : g.Stopped opts s s := ⟨h.toSound, hstop, htop, le_rfl, fun k => by
    have hcount := h.waits.remaining k
    rw [count_nil] at hcount
    omega⟩
  have hend : g.Stopped opts s ((range g.size).foldl
      (fun s i => if s.status i = .pending then g.skip g.size i .cancelledBeforeStart s else s) s) :=
    Loops.foldl_keeps (P := g.Stopped opts s) (fun i hi _ ht => ht.skip (mem_range.mp hi)) hstart
  have hnone : ∀ i ∈ range g.size, ((range g.size).foldl
      (fun s i => if s.status i = .pending then g.skip g.size i .cancelledBeforeStart s else s) s).status i ≠ .pending := by
    apply Loops.foldl_each (P := fun _ : Run => True) (Q := fun i t => t.status i ≠ .pending)
    · exact fun _ _ _ _ => trivial
    · intro i hi t _
      split
      · exact (skip_shuts (mem_range.mp hi) number_le_size).1
      · assumption
    · intro i hi m t _ hm
      split
      · exact skip_not_pending (mem_range.mp hi) hm
      · exact hm
    · trivial
  have hgone : ∀ k < g.size, (g.skipAll s).status k ≠ .pending := fun k hk => hnone k (mem_range.mpr hk)
  have hsound : g.Sound opts (g.skipAll s) := hend.toSound.same rfl rfl rfl rfl rfl rfl
  refine ⟨hsound, ⟨?_, ?_, nodup_nil, fun k hk => (by cases hk), ?_⟩, ?_, hend.top, hend.grew, ?_⟩
  · intro k
    exact (hend.remaining k).trans (Int.add_zero _).symm
  · intro k hk
    cases hk
  · intro hst
    rw [show (g.skipAll s).stopping = true from hend.stopping] at hst
    cases hst
  · exact fun k _ m hm => hgone m (lt_of_mem_deps hm)
  · intro hzero
    rw [hsound.tallied.final]
    apply size_le_number
    intro k hk
    have hidle : (g.skipAll s).status k ≠ .running := by
      intro hr
      have hpos : 0 < g.number fun k => (g.skipAll s).status k = .running := number_pos hk hr
      rw [← hsound.tallied.running] at hpos
      omega
    have hwait := hgone k hk
    cases hstatus : (g.skipAll s).status k <;> simp_all [Status.Done]

/-- While ready jobs are tried one by one. -/
structure Starting (g : Graph) (opts : Options) (s : Run) (rest : List ℕ) (t : Run) : Prop extends Sound g opts t where
  waits : g.Waits rest [] t
  shut : g.Shut t
  top : t.phase = .top
  grew : s.final ≤ t.final
  going : t.stopping = false
  full : t.ready ≠ [] → 0 < t.running

/-- The job is left on the list. -/
theorem Starting.leave (h : g.Starting opts s (i :: rest) t) (hjobs : 1 ≤ opts.jobs)
    (hheavy : 1 ≤ opts.heavyJobs) (hfull : t.running ≥ opts.jobs ∨ (g.heavy i = true ∧ t.runningHeavy ≥ opts.heavyJobs)) :
    g.Starting opts s rest { t with ready := t.ready ++ [i] } := by
  have hlist : (t.ready ++ [i]) ++ rest = t.ready ++ i :: rest := by rw [append_assoc, singleton_append]
  refine ⟨h.toSound.same rfl rfl rfl rfl rfl rfl, ⟨h.waits.remaining, ?_, ?_, h.waits.places, ?_⟩, h.shut, h.top,
    h.grew, h.going, ?_⟩
  · intro k hk
    rw [hlist] at hk
    exact h.waits.ready k hk
  · rw [hlist]
    exact h.waits.nodup
  · intro hs k hk hp hzero
    rw [hlist]
    exact h.waits.waiting hs k hk hp hzero
  · intro _
    change 0 < t.running
    rcases hfull with hfull | ⟨-, hfull⟩
    · omega
    · have hsub : t.runningHeavy ≤ t.running := by
        rw [h.tallied.heavy, h.tallied.running]
        exact number_mono fun k hk => hk.2
      omega

/-- The job is started. -/
theorem Starting.launch (h : g.Starting opts s (i :: rest) t)
    (hfree : ¬ (t.running ≥ opts.jobs ∨ (g.heavy i = true ∧ t.runningHeavy ≥ opts.heavyJobs))) :
    g.Starting opts s rest (g.launch t i) := by
  have hself : (g.launch t i).status i = .running := update_self ..
  have hne (m : ℕ) (hm : m ≠ i) : (g.launch t i).status m = t.status m := update_of_ne hm ..
  have hmem : i ∈ t.ready ++ i :: rest := mem_append_right _ mem_cons_self
  obtain ⟨hi, hp, hzero⟩ := h.waits.ready i hmem
  have hsucc (k : ℕ) : (g.launch t i).status k = .succeeded ↔ t.status k = .succeeded := by
    by_cases hk : k = i
    · rw [hk, hself, hp]
      simp
    · rw [hne k hk]
  have hnodup := h.waits.nodup
  have hperm : (t.ready ++ i :: rest).Perm (i :: (t.ready ++ rest)) := perm_middle
  have hnot : i ∉ t.ready ++ rest := (nodup_cons.mp (hperm.nodup_iff.mp hnodup)).1
  have hsub (k : ℕ) : k ∈ t.ready ++ i :: rest ↔ k = i ∨ k ∈ t.ready ++ rest := by
    rw [hperm.mem_iff, mem_cons]
  refine ⟨?_, ⟨?_, ?_, (nodup_cons.mp (hperm.nodup_iff.mp hnodup)).2, h.waits.places, ?_⟩, ?_, h.top, h.grew, h.going,
    ?_⟩
  · apply h.toSound.launch hi hp (h.waits.succeeded hzero) h.going
    · omega
    · intro hheavy
      by_contra hless
      exact hfree (.inr ⟨hheavy, Int.not_lt.mp hless⟩)
  · intro k
    rw [countP_same hsucc]
    exact h.waits.remaining k
  · intro k hk
    have hki : k ≠ i := by
      rintro rfl
      exact hnot hk
    rw [hne k hki]
    exact h.waits.ready k ((hsub k).mpr (.inr hk))
  · intro hs k hk hpend hrem
    have hki : k ≠ i := by
      rintro rfl
      rw [hself] at hpend
      cases hpend
    rw [hne k hki] at hpend
    exact ((hsub k).mp (h.waits.waiting hs k hk hpend hrem)).resolve_left hki
  · apply h.shut.mono
    · intro k hk
      by_cases hki : k = i
      · rw [hki, hself] at hk
        cases hk
      · rwa [hne k hki] at hk
    · intro m hm
      by_cases hmi : m = i
      · rw [hmi, hself] at hm
        cases hm
      · rwa [hne m hmi] at hm
  · intro _
    have hpos : 0 ≤ t.running := by
      rw [h.tallied.running]
      exact number_nonneg
    change 0 < t.running + 1
    omega

theorem Starting.all (hjobs : 1 ≤ opts.jobs) (hheavy : 1 ≤ opts.heavyJobs)
    (h : g.Starting opts s rest t) : g.Starting opts s [] (rest.foldl (g.tryStart opts) t) := by
  induction rest generalizing t with
  | nil => exact h
  | cons i rest ih =>
    apply ih
    rw [tryStart]
    split
    · rename_i hfull
      exact h.leave hjobs hheavy hfull
    · rename_i hfree
      exact h.launch hfree

section

variable (hacc : ∀ k < g.size, Acc (fun d k => d ∈ g.deps k) k)

include hacc

/-- Where nothing runs and nothing is ready, nothing is left. -/
theorem all_done (hexist : g.DepsExist) (h : g.Sound opts s)
    (hwaits : g.Waits [] [] s) (hshut : g.Shut s) (hgoing : s.stopping = false) (hready : s.ready = [])
    (hidle : s.running = 0) : ∀ k < g.size, (s.status k).Done = true := by
  intro k hk
  induction hacc k hk with
  | intro k _ ih =>
    have hrun : s.status k ≠ .running := by
      intro hr
      have hpos : 0 < g.number fun k => s.status k = .running := number_pos hk hr
      rw [← h.tallied.running] at hpos
      omega
    have hpend : s.status k ≠ .pending := by
      intro hp
      have hsucc : ∀ d ∈ g.deps k, s.status d = .succeeded := by
        intro d hd
        have hdone := ih d hd (deps_lt hexist hd)
        by_contra hne
        have hbroken : (s.status d).Broken = true := by
          cases hst : s.status d <;> simp_all [Status.Done, Status.Broken]
        exact hshut d hbroken k hd hp
      have hzero : s.remaining k = 0 := by
        have hnone : (g.deps k).countP (fun d => s.status d ≠ .succeeded) = 0 := by
          apply countP_eq_zero.mpr
          intro d hd
          simp [hsucc d hd]
        rw [hwaits.remaining, hnone]
        rfl
      have hmem := hwaits.waiting hgoing k hk hp hzero
      rw [hready] at hmem
      cases hmem
    cases hst : s.status k <;> simp_all [Status.Done]

theorem startReady_turned (hexist : g.DepsExist)
    (hjobs : 1 ≤ opts.jobs) (hheavy : 1 ≤ opts.heavyJobs) (h : g.Inv opts s) (htop : s.phase = .top)
    (hgoing : s.stopping = false) : g.Turned opts s (g.startReady opts s) := by
  have hstart : g.Starting opts s s.ready { s with ready := [] } := by
    have hwaits := h.waits
    refine ⟨h.toSound.same rfl rfl rfl rfl rfl rfl, ⟨hwaits.remaining, ?_, ?_, hwaits.places, ?_⟩, h.shut, htop, le_rfl,
      hgoing, fun hne => absurd rfl hne⟩
    · intro k hk
      exact hwaits.ready k (mem_append_left _ hk)
    · have hnodup := hwaits.nodup
      rwa [append_nil] at hnodup
    · intro hs k hk hp hzero
      have hmem := hwaits.waiting hs k hk hp hzero
      rwa [append_nil] at hmem
  have hend : g.Starting opts s [] (g.startReady opts s) := hstart.all hjobs hheavy
  refine ⟨hend.toSound, hend.waits, hend.shut, hend.top, hend.grew, ?_⟩
  intro hidle
  rw [hend.tallied.final]
  apply size_le_number
  apply all_done hacc hexist hend.toSound hend.waits hend.shut hend.going _ hidle
  by_contra hne
  have hpos := hend.full hne
  omega

end

/-! ### Steps and runs -/

/-- How many turns and ends are still to come, at most. -/
def togo (g : Graph) (s : Run) : ℕ :=
  match s.phase with
  | .ended => 0
  | .waiting => 2 * (g.size - s.final).toNat
  | .top => 2 * (g.size - s.final).toNat + 1

/-- A job that runs is not final. -/
theorem Tallied.final_lt (h : g.Tallied s) (hi : i < g.size) (hr : s.status i = .running) : s.final < g.size := by
  by_contra hge
  have hdone := of_number_eq_size (p := fun k => (s.status k).Done = true) (by rw [← h.final]; omega) hi
  rw [hr] at hdone
  cases hdone

theorem Turned.inv (h : g.Turned opts s t) (hlt : s.final < g.size) :
    let u := if t.final ≥ g.size then t.endGraph
      else if t.running = 0 then if t.ready.length = 0 then t.endGraph else t else { t with phase := .waiting }
    g.Inv opts u ∧ g.togo u < 2 * (g.size - s.final).toNat + 1 := by
  have hgrew := h.grew
  split
  · rename_i hall
    refine ⟨⟨h.toSound.endGraph, h.waits.same rfl rfl rfl fun hs => hs, h.shut, ?_, fun _ => hall⟩, ?_⟩
    · intro hwait
      cases hwait
    · change 0 < _
      omega
  · rename_i hleft
    rw [if_neg fun hidle => hleft (h.idle hidle)]
    refine ⟨⟨h.toSound.same rfl rfl rfl rfl rfl rfl, h.waits.same rfl rfl rfl fun hs => hs, h.shut, fun _ => ?_, ?_⟩, ?_⟩
    · have hpos : 0 ≤ t.running := by
        rw [h.tallied.running]
        exact number_nonneg
      have hne : t.running ≠ 0 := fun hidle => hleft (h.idle hidle)
      change 0 < t.running
      omega
    · intro hend
      cases hend
    · change 2 * (g.size - t.final).toNat < _
      omega

section

variable (hacc : ∀ k < g.size, Acc (fun d k => d ∈ g.deps k) k) (hexist : g.DepsExist) (hjobs : 1 ≤ opts.jobs)
  (hheavy : 1 ≤ opts.heavyJobs) (h : g.Inv opts s)
include hacc hexist hjobs hheavy h

theorem Inv.turned (htop : s.phase = .top) :
    g.Turned opts s (if s.stopping = true then g.skipAll s else g.startReady opts s) := by
  split
  · rename_i hstop
    exact skipAll_turned h htop hstop
  · rename_i hgoing
    exact startReady_turned hacc hexist hjobs hheavy h htop (Bool.eq_false_iff.mpr hgoing)

theorem Inv.turn (htop : s.phase = .top) : g.Inv opts (g.turn opts s) ∧ g.togo (g.turn opts s) < g.togo s := by
  have htogo : g.togo s = 2 * (g.size - s.final).toNat + 1 := by rw [togo, htop]
  rw [Graph.turn, htogo]
  split
  · rename_i hall
    refine ⟨⟨h.toSound.endGraph, h.waits.same rfl rfl rfl fun hs => hs, h.shut, ?_, fun _ => Int.not_lt.mp hall⟩, ?_⟩
    · intro hwait
      cases hwait
    · change 0 < _
      omega
  · rename_i hleft
    have hlt : s.final < g.size := Classical.not_not.mp hleft
    have hseen : g.Inv opts (if s.stopping = false ∧ s.cancelled = true then s.stop else s) ∧
        (if s.stopping = false ∧ s.cancelled = true then s.stop else s).phase = .top ∧
          (if s.stopping = false ∧ s.cancelled = true then s.stop else s).final = s.final := by
      split
      · exact ⟨h.stop htop, htop, rfl⟩
      · exact ⟨h, htop, rfl⟩
    obtain ⟨hinv, htop', hfinal⟩ := hseen
    have hturned := hinv.turned hacc hexist hjobs hheavy htop'
    have hend := hturned.inv (by rw [hfinal]; exact hlt)
    rw [hfinal] at hend
    exact hend

theorem Inv.step {a : Action} (hstep : g.step opts s a = some s') :
    g.Inv opts s' ∧ g.togo s' + (if a = .cancel then 0 else 1) ≤ g.togo s := by
  cases a with
  | turn =>
    rw [Graph.step] at hstep
    split at hstep
    · rename_i htop
      cases hstep
      obtain ⟨hinv, hless⟩ := h.turn hacc hexist hjobs hheavy htop
      exact ⟨hinv, hless⟩
    · cases hstep
  | receive i out =>
    rw [Graph.step] at hstep
    split at hstep
    · rename_i hcan
      obtain ⟨hwait, hi, hr⟩ := hcan
      cases hstep
      obtain ⟨hinv, htop, hmore⟩ := h.receive hi hr out
      refine ⟨hinv, ?_⟩
      have hlt := h.tallied.final_lt hi hr
      rw [togo, togo, htop, hwait]
      simp only [reduceCtorEq, if_false]
      omega
    · cases hstep
  | cancel =>
    cases hstep
    exact ⟨h.cancel, le_rfl⟩

end

theorem inv_init (hjobs : 1 ≤ opts.jobs) (hheavy : 1 ≤ opts.heavyJobs) : g.Inv opts g.init := by
  have hnever (m : Mark) (hm : m ∈ g.init.trace) : ∃ k, m = .queued k := by
    obtain ⟨k, -, rfl⟩ := mem_map.mp hm
    exact ⟨k, rfl⟩
  have hsucc (k : ℕ) : (g.deps k).countP (fun d => g.init.status d ≠ .succeeded) = (g.deps k).length := by
    apply countP_eq_length.mpr
    intro d _
    simp [init]
  have hready (k : ℕ) : k ∈ g.init.ready ++ [] ↔ k < g.size ∧ (g.deps k).length = 0 := by
    rw [append_nil, init, mem_filter]
    simp
  have hnone (p : ℕ → Prop) [DecidablePred p] (hp : ∀ k, ¬ p k) : (0 : ℤ) = g.number p := by
    rw [number, Finset.filter_false_of_mem fun k _ => hp k]
    rfl
  refine ⟨⟨⟨fun _ _ => rfl, ?_, ?_, ?_, ?_, ?_, ?_⟩, ?_, ?_, ?_, ?_, ?_⟩, ⟨?_, ?_, ?_, ?_, ?_⟩, ?_, ?_, ?_⟩
  · exact hnone _ fun k => by simp [init]
  · exact hnone _ fun k => by simp [init]
  · exact hnone _ fun k => by simp [init, Status.Done]
  · intro k
    have hempty : g.init.outcomes k = [] := by
      apply filterMap_eq_nil_iff.mpr
      intro m hm
      obtain ⟨j, rfl⟩ := hnever m hm
      rfl
    rw [hempty]
    rfl
  · intro k
    constructor
    · intro hm
      obtain ⟨j, hj⟩ := hnever _ hm
      cases hj
    · intro hb
      cases hb
  · constructor
    · intro hst
      cases hst
    · intro hm
      obtain ⟨j, hj⟩ := hnever _ hm
      cases hj
  · intro before m after heq
    obtain ⟨j, rfl⟩ := hnever m (heq ▸ mem_append_right _ mem_cons_self)
    exact trivial
  · intro k hb
    cases hb
  · intro k hk
    cases hk
  · change (0 : ℤ) ≤ _
    omega
  · change (0 : ℤ) ≤ _
    omega
  · intro k
    rw [hsucc]
    exact (Int.add_zero _).symm
  · intro k hk
    obtain ⟨hlt, hzero⟩ := (hready k).mp hk
    refine ⟨hlt, rfl, ?_⟩
    change ((g.deps k).length : ℤ) = 0
    omega
  · rw [append_nil]
    exact nodup_range.filter _
  · intro k hk
    cases hk
  · intro _ k hk _ hzero
    have hlen : ((g.deps k).length : ℤ) = 0 := hzero
    exact (hready k).mpr ⟨hk, by omega⟩
  · intro k hk
    cases hk
  · intro hwait
    cases hwait
  · intro hend
    cases hend

/-- How many turns and ends a run has had. -/
def moves (actions : List Action) : ℕ := actions.countP (· ≠ .cancel)

theorem Inv.run (hacc : ∀ k < g.size, Acc (fun d k => d ∈ g.deps k) k) (hexist : g.DepsExist)
    (hjobs : 1 ≤ opts.jobs) (hheavy : 1 ≤ opts.heavyJobs) (h : g.Inv opts s) {actions : List Action}
    (hrun : g.run opts s actions = some s') : g.Inv opts s' ∧ g.togo s' + moves actions ≤ g.togo s := by
  induction actions generalizing s with
  | nil =>
    cases hrun
    exact ⟨h, le_rfl⟩
  | cons a actions ih =>
    obtain ⟨s₁, hstep, hrest⟩ := Option.bind_eq_some_iff.mp hrun
    obtain ⟨hinv, hless⟩ := h.step hacc hexist hjobs hheavy hstep
    obtain ⟨hend, hmoves⟩ := ih hinv hrest
    refine ⟨hend, ?_⟩
    rw [moves, countP_cons, ← moves]
    by_cases ha : a = .cancel
    · simp [ha]
      omega
    · simp only [ha, if_false] at hless
      simp [ha]
      omega

/-! ### What a run of the graph guarantees -/

/-- The run was stopped, and the job had not been started. -/
def StoppedBefore (trace : List Mark) (k : ℕ) : Prop :=
  ∃ before after, trace = before ++ .stopped :: after ∧ .started k ∉ before

structure RunsWell (g : Graph) (opts : Options) (numCPU : ℤ) (s : Run) : Prop where
  /-- Until it is over, the run has a next turn, or a job whose end it waits for. -/
  goesOn : s.phase ≠ .ended → (g.step (opts.settled numCPU) s .turn).isSome = true ∨
    ∃ k < g.size, ∀ out, (g.step (opts.settled numCPU) s (.receive k out)).isSome = true
  once : ∀ k, s.outcomes k = if (s.status k).Done then [s.status k] else []
  order : ∀ before after k, s.trace = before ++ .started k :: after →
    ∀ d ∈ g.deps k, .finished d .succeeded ∈ before
  cap : g.number (fun k => s.status k = .running) ≤ opts.jobs
  heavyCap : g.number (fun k => g.heavy k = true ∧ s.status k = .running) ≤ min opts.heavyJobs opts.jobs
  final : s.phase = .ended → ∀ k < g.size, (s.status k).Done = true
  skipped : s.phase = .ended → ∀ k < g.size,
    (s.status k = .skipped ↔ (∃ d, g.Downstream k d ∧ s.status d ≠ .succeeded) ∨ StoppedBefore s.trace k)

theorem settled_jobs {numCPU : ℤ} (hjobs : 1 ≤ opts.jobs) : (opts.settled numCPU).jobs = opts.jobs := by
  rw [Options.settled]
  rw [if_neg (by omega)]

theorem settled_heavyJobs {numCPU : ℤ} (hjobs : 1 ≤ opts.jobs) (hheavy : 1 ≤ opts.heavyJobs) :
    (opts.settled numCPU).heavyJobs = min opts.heavyJobs opts.jobs := by
  rw [Options.settled]
  have hnoHeavy : ¬ opts.heavyJobs ≤ 0 := by omega
  have hnoJobs : ¬ opts.jobs ≤ 0 := by omega
  simp only [hnoJobs, if_false]
  split <;> omega

/-- A job that has begun has nothing above it that has not succeeded. -/
theorem Sound.downstream (h : g.Sound opts s) (hbegun : (s.status k).Begun = true) {d : ℕ} (hd : g.Downstream k d) :
    s.status d = .succeeded := by
  induction hd with
  | single hd => exact h.begun k hbegun _ hd
  | tail _ hstep ih => exact h.begun _ (by rw [ih]; rfl) _ hstep

theorem Sound.skipped_iff (h : g.Sound opts s) (hdone : (s.status k).Done = true) :
    s.status k = .skipped ↔ (∃ d, g.Downstream k d ∧ s.status d ≠ .succeeded) ∨ StoppedBefore s.trace k := by
  constructor
  · intro hskip
    rcases h.why k hskip with hstop | ⟨d, hd, hbroken⟩
    · obtain ⟨before, after, heq⟩ := append_of_mem (h.tallied.stopped.mp hstop)
      refine .inr ⟨before, after, heq, fun hmem => ?_⟩
      have hbegun := (h.tallied.begun k).mp (heq ▸ mem_append_left _ hmem)
      rw [hskip] at hbegun
      cases hbegun
    · refine .inl ⟨d, Relation.TransGen.single hd, fun hsucc => ?_⟩
      rw [hsucc] at hbroken
      cases hbroken
  · intro hwhy
    have hnever : (s.status k).Begun = false := by
      apply Bool.eq_false_iff.mpr
      intro hbegun
      rcases hwhy with ⟨d, hd, hne⟩ | ⟨before, after, heq, hnot⟩
      · exact hne (h.downstream hbegun hd)
      have hmem := (h.tallied.begun k).mpr hbegun
      rw [heq] at hmem
      rcases mem_append.mp hmem with hmem | hmem
      · exact hnot hmem
      · rcases mem_cons.mp hmem with hsame | hmem
        · cases hsame
        · obtain ⟨mid, rest, rfl⟩ := append_of_mem hmem
          have hlate := h.proper (before ++ .stopped :: mid) (.started k) rest (by rw [heq]; simp)
          exact hlate.2 (mem_append_right _ mem_cons_self)
    cases hst : s.status k <;> simp_all [Status.Begun, Status.Done]

theorem Inv.runsWell {numCPU : ℤ} (h : g.Inv (opts.settled numCPU) s) (hjobs : 1 ≤ opts.jobs)
    (hheavy : 1 ≤ opts.heavyJobs) : g.RunsWell opts numCPU s := by
  have hall (hend : s.phase = .ended) (k : ℕ) (hk : k < g.size) : (s.status k).Done = true := by
    have hover := h.complete hend
    rw [h.tallied.final] at hover
    exact of_number_eq_size hover hk
  refine ⟨?_, h.tallied.outcomes, ?_, ?_, ?_, hall, fun hend k hk => h.toSound.skipped_iff (hall hend k hk)⟩
  · intro hgoing
    cases hphase : s.phase with
    | top => simp [Graph.step, hphase]
    | waiting =>
      right
      have hbusy := h.busy hphase
      rw [h.tallied.running] at hbusy
      obtain ⟨k, hk, hr⟩ := exists_of_number_pos hbusy
      refine ⟨k, hk, fun out => ?_⟩
      simp [Graph.step, hphase, hk, hr]
    | ended => exact absurd hphase hgoing
  · intro before after k heq
    exact (h.proper before _ after heq).1
  · rw [← h.tallied.running, ← settled_jobs hjobs]
    exact h.cap
  · rw [← h.tallied.heavy, ← settled_heavyJobs hjobs hheavy]
    exact h.heavyCap

/-- Three jobs in a row, the second naming the first twice. -/
def three : Graph :=
  ⟨[⟨['a'], [], false⟩, ⟨['b'], [['a'], ['a']], true⟩, ⟨['c'], [['b']], false⟩], by decide⟩

end LibreServ.BuildGraph.Graph
