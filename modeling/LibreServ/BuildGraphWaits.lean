import LibreServ.BuildGraphKept

/-! The scheduler's waiting jobs. What is still to be waited for is what has not succeeded; a job is on the ready list
as soon as that is nothing; and nothing waits for a job that will never succeed. -/

namespace LibreServ.BuildGraph.Graph

open List

variable {g : Graph} {s s' : Run} {i k m : ℕ} {st : Status} {err : Option JobError} {cause : JobError} {depth : ℕ}
  {owed : List ℕ}

theorem mem_dependents : m ∈ g.dependents k ↔ k ∈ g.deps m := by
  rw [dependents, mem_flatMap]
  constructor
  · rintro ⟨i, -, hm⟩
    obtain ⟨d, hd, rfl⟩ := mem_map.mp hm
    obtain ⟨hd, heq⟩ := mem_filter.mp hd
    rw [← of_decide_eq_true heq]
    exact hd
  · intro hk
    refine ⟨m, mem_range.mpr (lt_of_mem_deps hk), ?_⟩
    exact mem_map.mpr ⟨k, mem_filter.mpr ⟨hk, decide_eq_true rfl⟩, rfl⟩

/-- A job stands among another's dependents as often as it names it. -/
theorem count_dependents : (g.dependents k).count m = (g.deps m).count k := by
  have hlist (l : List ℕ) : (l.flatMap fun i => ((g.deps i).filter (· = k)).map fun _ => i).count m =
      l.count m * (g.deps m).count k := by
    induction l with
    | nil => simp
    | cons i l ih =>
      have hhead : (((g.deps i).filter (· = k)).map fun _ => i).count m =
          if i = m then (g.deps i).count k else 0 := by
        rw [map_const', count_replicate, ← countP_eq_length_filter]
        by_cases him : i = m
        · simp [count, BEq.beq]
        · simp [him]
      rw [flatMap_cons, count_append, ih, hhead, count_cons]
      by_cases him : i = m
      · rw [if_pos him, him, if_pos (beq_self_eq_true m), Nat.add_mul, Nat.one_mul, Nat.add_comm]
      · rw [if_neg him, if_neg (by simpa using him), Nat.add_zero, Nat.zero_add]
  rw [dependents, hlist]
  by_cases hm : m < g.size
  · rw [count_eq_one_of_mem nodup_range (mem_range.mpr hm), one_mul]
  · have hnone : (g.deps m).count k = 0 := count_eq_zero.mpr fun hk => hm (lt_of_mem_deps hk)
    rw [hnone, Nat.mul_zero]

/-- What the waiting jobs wait for. Of the ready jobs some (`rest`) may have been taken off the list, and for some
(`owed`) a dependency may have succeeded that is still to be counted. -/
structure Waits (g : Graph) (rest owed : List ℕ) (s : Run) : Prop where
  remaining : ∀ k, s.remaining k = ((g.deps k).countP fun d => s.status d ≠ .succeeded) + owed.count k
  ready : ∀ k ∈ s.ready ++ rest, k < g.size ∧ s.status k = .pending ∧ s.remaining k = 0
  nodup : (s.ready ++ rest).Nodup
  places : ∀ k ∈ owed, k < g.size
  waiting : s.stopping = false → ∀ k < g.size, s.status k = .pending → s.remaining k = 0 → k ∈ s.ready ++ rest

/-- Nothing more is to be waited for: all dependencies have succeeded. -/
theorem Waits.succeeded {rest : List ℕ} (h : g.Waits rest owed s) (hzero : s.remaining k = 0) :
    ∀ d ∈ g.deps k, s.status d = .succeeded := by
  have hcount := h.remaining k
  have hnone : (g.deps k).countP (fun d => s.status d ≠ .succeeded) = 0 := by omega
  intro d hd
  have hnot := countP_eq_zero.mp hnone d hd
  simpa using hnot

theorem settle_eq : s.settle k =
    { s with
      remaining := Function.update s.remaining k (s.remaining k - 1)
      ready := if s.remaining k - 1 = 0 ∧ s.status k = .pending then s.ready ++ [k] else s.ready } := by
  unfold Run.settle
  simp only [Function.update_self]
  split <;> rfl

/-- A dependency's success is counted. -/
theorem Waits.settle (h : g.Waits [] (k :: owed) s) : g.Waits [] owed (s.settle k) := by
  have hold : 0 < s.remaining k := by
    have hcount := h.remaining k
    rw [count_cons_self] at hcount
    omega
  have hready : ∀ m ∈ s.ready, m ≠ k := by
    rintro m hm rfl
    have hzero := (h.ready m (mem_append_left _ hm)).2.2
    omega
  have hremaining (m : ℕ) :
      (s.settle k).remaining m = Function.update s.remaining k (s.remaining k - 1) m := by rw [settle_eq]
  have hstatus : (s.settle k).status = s.status := by rw [settle_eq]
  have hstopping : (s.settle k).stopping = s.stopping := by rw [settle_eq]
  have hlist : (s.settle k).ready =
      if s.remaining k - 1 = 0 ∧ s.status k = .pending then s.ready ++ [k] else s.ready := by rw [settle_eq]
  have hother (m : ℕ) (hm : m ≠ k) : (s.settle k).remaining m = s.remaining m := by
    rw [hremaining, Function.update_of_ne hm]
  have hself : (s.settle k).remaining k = s.remaining k - 1 := by rw [hremaining, Function.update_self]
  constructor
  · intro m
    rw [hstatus]
    by_cases hm : m = k
    · subst hm
      rw [hself, h.remaining, count_cons_self]
      omega
    · rw [hother m hm, h.remaining, count_cons_of_ne (Ne.symm hm)]
  · intro m hm
    rw [append_nil, hlist] at hm
    rw [hstatus]
    have hcases : m ∈ s.ready ∨ (m = k ∧ s.remaining k - 1 = 0 ∧ s.status k = .pending) := by
      split at hm
      · rename_i hzero
        rcases mem_append.mp hm with hm | hm
        · exact .inl hm
        · exact .inr ⟨mem_singleton.mp hm, hzero⟩
      · exact .inl hm
    rcases hcases with hm | ⟨rfl, hzero, hp⟩
    · rw [hother m (hready m hm)]
      exact h.ready m (mem_append_left _ hm)
    · rw [hself]
      exact ⟨h.places m mem_cons_self, hp, hzero⟩
  · rw [append_nil, hlist]
    have hnodup := h.nodup
    rw [append_nil] at hnodup
    split
    · rw [← concat_eq_append]
      exact List.Nodup.concat (fun hmem => hready k hmem rfl) hnodup
    · exact hnodup
  · exact fun m hm => h.places m (mem_cons_of_mem k hm)
  · intro hstop m hm hp hzero
    rw [hstopping] at hstop
    rw [hstatus] at hp
    rw [append_nil, hlist]
    by_cases hmk : m = k
    · subst hmk
      rw [hself] at hzero
      rw [if_pos ⟨hzero, hp⟩]
      exact mem_append_right _ (mem_singleton_self m)
    · rw [hother m hmk] at hzero
      have hmem := h.waiting hstop m hm hp hzero
      rw [append_nil] at hmem
      split
      · exact mem_append_left _ hmem
      · exact hmem

theorem Waits.settleAll (h : g.Waits [] owed s) : g.Waits [] [] (owed.foldl Run.settle s) := by
  induction owed generalizing s with
  | nil => exact h
  | cons k owed ih =>
    exact ih h.settle

/-- One job more has succeeded: so many fewer are waited for. -/
theorem countP_succeed (hi : s.status i ≠ .succeeded) (hnew : s'.status i = .succeeded)
    (hsame : ∀ k, k ≠ i → s'.status k = s.status k) (l : List ℕ) :
    l.countP (fun d => s.status d ≠ .succeeded) = l.countP (fun d => s'.status d ≠ .succeeded) + l.count i := by
  induction l with
  | nil => rfl
  | cons d l ih =>
    rw [countP_cons, countP_cons, ih]
    by_cases hd : d = i
    · simp [hd, hi, hnew]
      omega
    · simp [hd, hsame d hd]
      omega

theorem countP_same (hsame : ∀ k, s'.status k = .succeeded ↔ s.status k = .succeeded) (l : List ℕ) :
    l.countP (fun d => s'.status d ≠ .succeeded) = l.countP (fun d => s.status d ≠ .succeeded) := by
  apply countP_congr
  intro d _
  simp [hsame d]

/-- A job succeeds: its dependents are owed one each. -/
theorem Waits.succeed (h : g.Waits [] [] s) (hi : s.status i = .running) :
    g.Waits [] (g.dependents i) (g.close i .succeeded none s) := by
  have hsame (k : ℕ) (hk : k ≠ i) : (g.close i .succeeded none s).status k = s.status k := Function.update_of_ne hk ..
  have hnew : (g.close i .succeeded none s).status i = .succeeded := Function.update_self ..
  constructor
  · intro k
    have hcount := countP_succeed (by simp [hi]) hnew hsame (g.deps k)
    have hold := h.remaining k
    rw [count_nil] at hold
    change s.remaining k = _
    rw [hold, count_dependents]
    omega
  · intro k hk
    obtain ⟨hlt, hp, hzero⟩ := h.ready k hk
    have hne : k ≠ i := by
      rintro rfl
      rw [hi] at hp
      cases hp
    rw [hsame k hne]
    exact ⟨hlt, hp, hzero⟩
  · exact h.nodup
  · exact fun k hk => lt_of_mem_deps (mem_dependents.mp hk)
  · intro hstop k hk hp hzero
    have hne : k ≠ i := by
      rintro rfl
      rw [hnew] at hp
      cases hp
    rw [hsame k hne] at hp
    exact h.waiting hstop k hk hp hzero

/-- A job that is not ready comes to an end without success. -/
theorem Waits.lose (h : g.Waits [] [] s) (hi : s.status i ≠ .succeeded) (hst : st ≠ .succeeded) (hp : st ≠ .pending)
    (hready : i ∉ s.ready) (hstatus : s'.status = Function.update s.status i st) (hremaining : s'.remaining = s.remaining)
    (hlist : s'.ready = s.ready) (hstop : s'.stopping = s.stopping) : g.Waits [] [] s' := by
  have hsame (k : ℕ) (hk : k ≠ i) : s'.status k = s.status k := by rw [hstatus, Function.update_of_ne hk]
  have hnew : s'.status i = st := by rw [hstatus, Function.update_self]
  have hsucc (k : ℕ) : s'.status k = .succeeded ↔ s.status k = .succeeded := by
    by_cases hk : k = i
    · rw [hk, hnew]
      exact ⟨fun h => absurd h hst, fun h => absurd h hi⟩
    · rw [hsame k hk]
  constructor
  · intro k
    rw [hremaining, countP_same hsucc]
    exact h.remaining k
  · intro k hk
    rw [append_nil, hlist] at hk
    obtain ⟨hlt, hpend, hzero⟩ := h.ready k (mem_append_left _ hk)
    have hne : k ≠ i := fun heq => hready (heq ▸ hk)
    rw [hsame k hne, hremaining]
    exact ⟨hlt, hpend, hzero⟩
  · rw [hlist]
    exact h.nodup
  · exact h.places
  · intro hs k hk hpend hzero
    rw [hstop] at hs
    rw [hremaining] at hzero
    have hne : k ≠ i := by
      rintro rfl
      rw [hnew] at hpend
      exact hp hpend
    rw [hsame k hne] at hpend
    rw [hlist]
    exact h.waiting hs k hk hpend hzero

/-- A dependency will never succeed. -/
def Blocked (g : Graph) (s : Run) (k : ℕ) : Prop := ∃ j ∈ g.deps k, (s.status j).Broken = true

theorem Blocked.of_le (h : g.Blocked s k) (hle : ∀ j, (s.status j).Broken = true → (s'.status j).Broken = true) :
    g.Blocked s' k := by
  obtain ⟨j, hj, hbroken⟩ := h
  exact ⟨j, hj, hle j hbroken⟩

theorem Waits.not_ready (h : g.Waits [] [] s) (hblocked : g.Blocked s k) : k ∉ s.ready := by
  intro hk
  obtain ⟨j, hj, hbroken⟩ := hblocked
  rw [h.succeeded (h.ready k (mem_append_left _ hk)).2.2 j hj] at hbroken
  cases hbroken

/-! ### Skipping -/

theorem skip_succ (hp : s.status i = .pending) : g.skip (depth + 1) i cause s =
    (g.dependents i).foldl (fun s d => g.skip depth d cause s) (s.finish i .skipped (some cause)) := by
  rw [skip, if_neg (by simp [hp])]
  simp only [Run.finish, Function.update_idem]

theorem skip_of_ne (hp : s.status i ≠ .pending) : g.skip depth i cause s = s := by
  cases depth with
  | zero => rfl
  | succ depth => rw [skip, if_pos hp]

/-- What every single skip keeps, skipping keeps. -/
theorem skip_keeps {P : Run → Prop} (hi : i < g.size)
    (hkeep : ∀ t k, P t → t.status k = .pending → k < g.size → P (t.finish k .skipped (some cause))) (hs : P s) :
    P (g.skip depth i cause s) := by
  induction depth generalizing i s with
  | zero => exact hs
  | succ depth ih =>
    by_cases hp : s.status i = .pending
    · rw [skip_succ hp]
      apply Loops.foldl_keeps (P := P) _ (hkeep s i hs hp hi)
      intro d hd t ht
      exact ih (lt_of_mem_deps (mem_dependents.mp hd)) ht
    · rw [skip_of_ne hp]
      exact hs

theorem broken_finish {t : Run} (hp : t.status k = .pending) {j : ℕ} (hj : (t.status j).Broken = true) :
    ((t.finish k .skipped err).status j).Broken = true := by
  by_cases hjk : j = k
  · rw [hjk, hp] at hj
    cases hj
  · rw [finish_of_ne hjk]
    exact hj

theorem skip_broken (hi : i < g.size) {j : ℕ} (hj : (s.status j).Broken = true) :
    ((g.skip depth i cause s).status j).Broken = true :=
  skip_keeps (P := fun t => (t.status j).Broken = true) hi (fun _ _ ht hp _ => broken_finish hp ht) hj

/-- Where a job is skipped because of a dependency, each job skipped with it has such a dependency. -/
theorem skip_keeps_blocked {P : Run → Prop} (hi : i < g.size) (hblocked : g.Blocked s i)
    (hkeep : ∀ t k, P t → t.status k = .pending → k < g.size → g.Blocked t k → P (t.finish k .skipped (some cause)))
    (hs : P s) : P (g.skip depth i cause s) := by
  induction depth generalizing i s with
  | zero => exact hs
  | succ depth ih =>
    by_cases hp : s.status i = .pending
    · rw [skip_succ hp]
      have hstart : P (s.finish i .skipped (some cause)) ∧
          ((s.finish i .skipped (some cause)).status i).Broken = true :=
        ⟨hkeep s i hs hp hi hblocked, by rw [finish_self]; rfl⟩
      have hkeeps : ∀ d ∈ g.dependents i, ∀ t : Run, (P t ∧ (t.status i).Broken = true) →
          (P (g.skip depth d cause t) ∧ ((g.skip depth d cause t).status i).Broken = true) := by
        intro d hd t ht
        have hdep : i ∈ g.deps d := mem_dependents.mp hd
        exact ⟨ih (lt_of_mem_deps hdep) ⟨i, hdep, ht.2⟩ ht.1, skip_broken (lt_of_mem_deps hdep) ht.2⟩
      exact (Loops.foldl_keeps hkeeps hstart).1
    · rw [skip_of_ne hp]
      exact hs

/-- No job can be started that depends on this one. -/
def ShutAt (g : Graph) (s : Run) (k : ℕ) : Prop := ∀ m, k ∈ g.deps m → s.status m ≠ .pending

theorem skip_not_pending (hi : i < g.size) (hm : s.status m ≠ .pending) :
    (g.skip depth i cause s).status m ≠ .pending := by
  apply skip_keeps (P := fun t => t.status m ≠ .pending) hi _ hm
  intro t k ht hp _
  by_cases hmk : m = k
  · rw [hmk, finish_self]
    simp
  · rw [finish_of_ne hmk]
    exact ht

theorem ShutAt.skip (h : g.ShutAt s k) (hi : i < g.size) : g.ShutAt (g.skip depth i cause s) k :=
  fun m hm => skip_not_pending hi (h m hm)

/-- How many jobs may still be skipped. -/
def pendings (g : Graph) (s : Run) : ℤ := g.number fun k => s.status k = .pending

variable (hi : i < g.size)

include hi

theorem pendings_finish (hp : s.status i = .pending) :
    g.pendings s = g.pendings (s.finish i .skipped err) + 1 := by
  apply number_add_one hi
  · rw [finish_self]
    simp
  · exact hp
  · intro k hk
    rw [finish_of_ne hk]

theorem pendings_skip : g.pendings (g.skip depth i cause s) ≤ g.pendings s := by
  apply skip_keeps (P := fun t => g.pendings t ≤ g.pendings s) hi _ le_rfl
  intro t k ht hp hk
  have hless : g.pendings t = g.pendings (t.finish k .skipped (some cause)) + 1 := pendings_finish hk hp
  omega

/-- **Skipping goes all the way down.** As deep as there are jobs left to skip is deep enough. -/
theorem skip_shuts (hdepth : g.pendings s ≤ depth) : (g.skip depth i cause s).status i ≠ .pending ∧
      ∀ k, (g.skip depth i cause s).status k = .skipped →
        s.status k = .skipped ∨ g.ShutAt (g.skip depth i cause s) k := by
  induction depth generalizing i s with
  | zero =>
    refine ⟨?_, fun k hk => .inl hk⟩
    intro hp
    have hpos : 0 < g.pendings s := number_pos hi hp
    omega
  | succ depth ih =>
    by_cases hp : s.status i = .pending
    · have hless : g.pendings s = g.pendings (s.finish i .skipped (some cause)) + 1 := pendings_finish hi hp
      have hstart : g.pendings (s.finish i .skipped (some cause)) ≤ depth ∧
          ∀ k, (s.finish i .skipped (some cause)).status k = .skipped →
            s.status k = .skipped ∨ k = i ∨ g.ShutAt (s.finish i .skipped (some cause)) k := by
        refine ⟨by omega, ?_⟩
        intro k hk
        by_cases hki : k = i
        · exact .inr (.inl hki)
        · rw [finish_of_ne hki] at hk
          exact .inl hk
      have hkeep : ∀ d ∈ g.dependents i, ∀ t : Run,
          (g.pendings t ≤ depth ∧ ∀ k, t.status k = .skipped → s.status k = .skipped ∨ k = i ∨ g.ShutAt t k) →
          g.pendings (g.skip depth d cause t) ≤ depth ∧ ∀ k, (g.skip depth d cause t).status k = .skipped →
            s.status k = .skipped ∨ k = i ∨ g.ShutAt (g.skip depth d cause t) k := by
        intro d hd t ht
        have hlt : d < g.size := lt_of_mem_deps (mem_dependents.mp hd)
        refine ⟨(pendings_skip hlt).trans ht.1, ?_⟩
        intro k hk
        rcases (ih hlt ht.1).2 k hk with hold | hshut
        · rcases ht.2 k hold with hold | rfl | hshut
          · exact .inl hold
          · exact .inr (.inl rfl)
          · exact .inr (.inr (hshut.skip hlt))
        · exact .inr (.inr hshut)
      have hend := Loops.foldl_keeps hkeep hstart
      have hdone : ∀ d ∈ g.dependents i, ((g.dependents i).foldl (fun s d => g.skip depth d cause s)
          (s.finish i .skipped (some cause))).status d ≠ .pending := by
        apply Loops.foldl_each (Q := fun d t => t.status d ≠ .pending) hkeep
        · intro d hd t ht
          exact (ih (lt_of_mem_deps (mem_dependents.mp hd)) ht.1).1
        · intro d hd m t _ hm
          exact skip_not_pending (lt_of_mem_deps (mem_dependents.mp hd)) hm
        · exact hstart
      have hself : ((g.dependents i).foldl (fun s d => g.skip depth d cause s)
          (s.finish i .skipped (some cause))).status i ≠ .pending := by
        apply Loops.foldl_keeps (P := fun t : Run => t.status i ≠ .pending)
        · intro d hd t ht
          exact skip_not_pending (lt_of_mem_deps (mem_dependents.mp hd)) ht
        · rw [finish_self]
          simp
      rw [skip_succ hp]
      refine ⟨hself, ?_⟩
      intro k hk
      rcases hend.2 k hk with hold | rfl | hshut
      · exact .inl hold
      · exact .inr fun m hm => hdone m (mem_dependents.mpr hm)
      · exact .inr hshut
    · rw [skip_of_ne hp]
      exact ⟨hp, fun k hk => .inl hk⟩

end LibreServ.BuildGraph.Graph
