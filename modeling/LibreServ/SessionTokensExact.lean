import LibreServ.SessionTokensKept

/-! Revocation is exact in every run whose steps find what they should: a refresh token yields one pair, a revoked
session stays out, and a new one is let in. -/

namespace LibreServ.SessionTokens

open List Option

namespace State

variable {st st' : State} {k i : Nat} {c : Call} {t : Token}

/-! ### `RevokeAllTokens` -/

theorem Inv.revokeAccess (h : st.Inv) (htimely : st.CallTimely .revokeAll) : (st.revokeAccess k).Inv := by
  have hsoil := h.soil
  unfold State.revokeAccess
  by_cases hhas : st.has (.revokeAll .access) = true
  · rw [if_pos hhas]
    have hover := hsoil.setCall (k := k) (fits_of_idle (c := .ended) rfl rfl fun _ hi => nomatch hi)
    refine hover.setRevoked (Nat.le_of_eq (length_map ..).symm) fun t' ht' _ => ?_
    obtain ⟨t, ht, rfl⟩ := mem_unclean ht'
    exact htimely hhas t ht
  · rw [if_neg hhas]
    have hinsert := hsoil.insertSentinel .access fun t' ht' => by
      obtain ⟨t, -, rfl⟩ := mem_unclean ht'
      rfl
    refine hinsert.setCall ⟨Nat.le_of_eq (length_map ..).symm, fun _ hi => (nomatch hi),
      fun t ht htype _ => hsoil.covered_insert ht htype, fun _ t' ht' => ?_⟩
    · obtain ⟨t, -, rfl⟩ := mem_unclean ht'
      rfl

/-- Between the two statements no token is clean, and every access token the first stands for is covered by its row. -/
theorem Inv.revokeRefresh (h : st.Inv) {issued : Nat} (hk : st.calls[k]? = some (.revokeRefresh issued))
    (htimely : st.CallTimely (.revokeRefresh issued)) : (st.revokeRefresh k issued).Inv := by
  have hfits := h.calls _ (mem_of_getElem? hk)
  have hover : ∀ st' : State, st'.Fits .ended := fun _ => fits_of_idle rfl rfl fun _ hi => nomatch hi
  unfold State.revokeRefresh
  by_cases hhas : st.has (.revokeAll .refresh) = true
  · rw [if_pos hhas]
    refine (h.setCall (hover st)).setRevoked hfits.begun_le fun t ht hr => ?_
    cases htype : t.type with
    | access => exact hfits.covered t ht htype hr
    | refresh => exact htimely hhas t ht htype hr
  · rw [if_neg hhas]
    have hinsert := h.insertSentinel .refresh (hfits.unclean rfl)
    refine (hinsert.setCall (hover _)).setRevoked hfits.begun_le fun t ht hr => ?_
    cases htype : t.type with
    | access => exact (hfits.covered t ht htype hr).insert
    | refresh => exact h.covered_insert ht htype

/-! ### The steps -/

theorem Inv.statement (h : st.Inv) (hk : st.calls[k]? = some c) (htimely : st.CallTimely c)
    (hs : st.statement k c = some st') : st'.Inv := by
  have hfits := h.calls c (mem_of_getElem? hk)
  have hplain : ∀ {st' : State} {c : Call}, c.begun = 0 → c.revoking = false → c.token = none → st'.Fits c := by
    intro st' c hzero hidle hnone
    refine fits_of_idle hzero hidle fun i hi => ?_
    rw [hnone] at hi
    cases hi
  cases c with
  | check token =>
    cases hs
    apply h.setCall
    split
    · exact hplain rfl rfl rfl
    · exact fits_of_idle rfl rfl fun i hi => hfits.known i hi
  | reused =>
    cases hs
    apply h.setCall
    split <;> exact hplain rfl rfl rfl
  | consume token =>
    obtain ⟨t, ht, htype⟩ := hfits.known token rfl
    simp only [State.statement] at hs
    split at hs
    · cases hs
      exact h.setCall (hplain rfl rfl rfl)
    · cases hs
      exact (h.spend ht htype).setCall (hplain rfl rfl rfl)
  | mint token =>
    obtain ⟨t, ht, rfl⟩ := map_eq_some_iff.mp hs
    obtain ⟨hroot, hbegun⟩ := htimely t ht
    have hrotated : some token = none → st.revoking = false → ∀ r ∈ st.rows, r.sentinel = true → r.expires_at ≤ st.now :=
      fun hnone => nomatch hnone
    exact (h.generateTokenPair hroot hbegun hrotated).setCall (hplain rfl rfl rfl)
  | revokeAll =>
    cases hs
    exact h.revokeAccess htimely
  | revokeRefresh issued =>
    cases hs
    exact h.revokeRefresh hk htimely
  | ended => cases hs

theorem Inv.act (h : st.Inv) {a : Action} (htimely : st.ActTimely a) (hs : st.act a = some st') : st'.Inv := by
  cases a with
  | login =>
    cases hs
    exact h.generateTokenPair h.revoked_le (fun c hc => (h.calls c hc).begun_le) fun _ hr => htimely hr
  | refreshTokensWithRotation token =>
    obtain ⟨t, ht, hs⟩ := bind_eq_some_iff.mp hs
    obtain ⟨⟨htype, -⟩, hs⟩ := ite_none_right_eq_some.mp hs
    cases hs
    apply h.setCalls
    intro c hc
    rcases mem_append.mp hc with hc | hc
    · exact .inl hc
    · rw [mem_singleton.mp hc]
      refine .inr (fits_of_idle rfl rfl fun i hi => ?_)
      cases hi
      exact ⟨t, ht, htype⟩
  | revokeRefreshToken token =>
    obtain ⟨t, ht, hs⟩ := bind_eq_some_iff.mp hs
    obtain ⟨htype, hs⟩ := ite_none_right_eq_some.mp hs
    cases hs
    split
    · exact h
    · exact h.spend ht htype
  | revokeAllTokens =>
    cases hs
    apply h.setCalls
    intro c hc
    rcases mem_append.mp hc with hc | hc
    · exact .inl hc
    · rw [mem_singleton.mp hc]
      exact .inr (fits_of_idle rfl rfl fun i hi => nomatch hi)
  | statement k =>
    obtain ⟨c, hc, hs⟩ := bind_eq_some_iff.mp hs
    exact h.statement hc (htimely c hc) hs
  | cleanupExpired =>
    cases hs
    exact h.cleanupExpired
  | crash =>
    cases hs
    exact h.setCalls fun _ hc => nomatch hc

/-! ### One pair for each refresh token -/

theorem pairs_generate (parent : Option Nat) (root token : Nat) :
    (st.generateTokenPair parent root).pairs token = st.pairs token + if parent = some token then 1 else 0 := by
  simp [pairs, State.generateTokenPair]

theorem pairs_unclean : State.pairs { st with tokens := st.tokens.map Token.unclean } i = st.pairs i := by
  simp only [pairs, countP_map]
  rfl

/-- A call goes on to something else than making a pair. -/
theorem count_set_le (calls : List Call) (k : Nat) (hc : c ≠ .mint i) :
    (calls.set k c).count (.mint i) ≤ calls.count (.mint i) := by
  have hother : ¬ (c == .mint i) = true := fun heq => hc (beq_iff_eq.mp heq)
  rcases Nat.lt_or_ge k calls.length with hk | hk
  · rw [count_set hk, if_neg hother]
    omega
  · exact Nat.le_of_eq (by rw [set_eq_of_length_le hk])

section

variable (h : st.Once)
include h

/-- No pair was made or is about to be made that was not before, and nothing that was spent is not. -/
theorem Once.of_le (hle : ∀ i, st'.pairs i + st'.calls.count (.mint i) ≤ st.pairs i + st.calls.count (.mint i))
    (hspent : ∀ i ∈ st.spent, i ∈ st'.spent) : st'.Once := by
  intro i
  have hbefore := h i
  have hafter := hle i
  by_cases hi : i ∈ st.spent
  · rw [if_pos hi] at hbefore
    rw [if_pos (hspent i hi)]
    omega
  · rw [if_neg hi] at hbefore
    omega

theorem Once.setCall (hc : ∀ i, c ≠ .mint i) : (st.setCall k c).Once :=
  h.of_le (fun i => Nat.add_le_add_left (count_set_le st.calls k (hc i)) _) fun _ hi => hi

theorem Once.addCall (hc : ∀ i, c ≠ .mint i) : Once { st with calls := st.calls ++ [c] } := by
  refine h.of_le (fun i => ?_) fun _ hi => hi
  have hother : ¬ (c == .mint i) = true := fun heq => hc i (beq_iff_eq.mp heq)
  rw [count_append, count_singleton, if_neg hother]
  exact Nat.le_refl _

theorem Once.spend (token : Nat) : (st.spend token).Once :=
  h.of_le (fun _ => Nat.le_refl _) fun _ hi => mem_cons_of_mem _ hi

theorem Once.soil : Once { st with tokens := st.tokens.map Token.unclean } := by
  refine h.of_le (fun i => Nat.le_of_eq ?_) fun _ hi => hi
  rw [pairs_unclean]

/-- A token is consumed that was not spent: while it has not expired, or its row is still there, it would be refused. -/
theorem Once.consume (hinv : st.Inv) {token : Nat} (hk : st.calls[k]? = some (.consume token))
    (htimely : st.CallTimely (.consume token)) (hhas : ¬ st.has (.jti token) = true) :
    ((st.spend token).setCall k (.mint token)).Once := by
  obtain ⟨t, ht, -⟩ := (hinv.calls _ (mem_of_getElem? hk)).known token rfl
  have hfresh : token ∉ st.spent := by
    intro hmem
    rcases htimely t ht with hnow | hrow
    · obtain ⟨t', ht', hrow⟩ := hinv.spent token hmem
      obtain rfl : t = t' := Option.some.inj (ht.symm.trans ht')
      obtain ⟨r, hr, hkey, -⟩ := hrow hnow
      exact hhas (List.any_eq_true.mpr ⟨r, hr, by simpa using hkey⟩)
    · exact hhas (hrow hmem)
  intro i
  have hbefore := h i
  change st.pairs i + (st.calls.set k (.mint token)).count (.mint i) ≤ if i ∈ token :: st.spent then 1 else 0
  by_cases hi : i = token
  · subst hi
    obtain ⟨hlt, -⟩ := List.getElem?_eq_some_iff.mp hk
    rw [if_neg hfresh] at hbefore
    rw [if_pos mem_cons_self, count_set hlt]
    simp only [BEq.rfl, if_true]
    omega
  · have hle := count_set_le st.calls k (c := .mint token) (i := i) fun heq => hi (by cases heq; rfl)
    have hmem : i ∈ token :: st.spent ↔ i ∈ st.spent := by simp [hi]
    simp only [hmem]
    omega

theorem Once.mint {token : Nat} (hk : st.calls[k]? = some (.mint token)) (root : Nat) :
    ((st.generateTokenPair (some token) root).setCall k .ended).Once := by
  obtain ⟨hlt, hget⟩ := List.getElem?_eq_some_iff.mp hk
  refine h.of_le (fun i => ?_) fun _ hi => hi
  change (st.generateTokenPair (some token) root).pairs i + (st.calls.set k .ended).count (.mint i) ≤ _
  rw [pairs_generate]
  by_cases hi : token = i
  · subst hi
    have hpos : 0 < st.calls.count (.mint token) := count_pos_iff.mpr (mem_of_getElem? hk)
    rw [count_set hlt, hget]
    simp only [if_true, beq_iff_eq, reduceCtorEq, if_false]
    omega
  · have hle := count_set_le st.calls k (c := .ended) (i := i) (by simp)
    rw [if_neg (by simpa using hi)]
    omega

theorem Once.statement (hinv : st.Inv) (hk : st.calls[k]? = some c) (htimely : st.CallTimely c)
    (hs : st.statement k c = some st') : st'.Once := by
  cases c with
  | check token | reused =>
    cases hs
    apply h.setCall
    intro i
    split <;> simp
  | consume token =>
    simp only [State.statement] at hs
    split at hs
    · cases hs
      exact h.setCall (by simp)
    · next hhas =>
        cases hs
        exact h.consume hinv hk htimely hhas
  | mint token =>
    obtain ⟨t, -, rfl⟩ := map_eq_some_iff.mp hs
    exact h.mint hk t.root
  | revokeAll =>
    cases hs
    unfold State.revokeAccess
    split
    · exact (h.soil.setCall (k := k) (c := .ended) (by simp)).of_le (fun _ => Nat.le_refl _) fun _ hi => hi
    · exact h.soil.setCall (k := k) (c := .revokeRefresh st.tokens.length) (by simp)
  | revokeRefresh issued =>
    cases hs
    unfold State.revokeRefresh
    split <;> exact (h.setCall (k := k) (c := .ended) (by simp)).of_le (fun _ => Nat.le_refl _) fun _ hi => hi
  | ended => cases hs

theorem Once.act (hinv : st.Inv) {a : Action} (htimely : st.ActTimely a) (hs : st.act a = some st') : st'.Once := by
  cases a with
  | login =>
    cases hs
    refine h.of_le (fun i => ?_) fun _ hi => hi
    rw [pairs_generate]
    exact Nat.le_refl _
  | refreshTokensWithRotation token =>
    obtain ⟨t, -, hs⟩ := bind_eq_some_iff.mp hs
    obtain ⟨-, hs⟩ := ite_none_right_eq_some.mp hs
    cases hs
    exact h.addCall (by simp)
  | revokeRefreshToken token =>
    obtain ⟨t, -, hs⟩ := bind_eq_some_iff.mp hs
    obtain ⟨-, hs⟩ := ite_none_right_eq_some.mp hs
    cases hs
    split
    · exact h
    · exact h.spend token
  | revokeAllTokens =>
    cases hs
    exact h.addCall (by simp)
  | statement k =>
    obtain ⟨c, hc, hs⟩ := bind_eq_some_iff.mp hs
    exact h.statement hinv hc (htimely c hc) hs
  | cleanupExpired =>
    cases hs
    exact h.of_le (fun _ => Nat.le_refl _) fun _ hi => hi
  | crash =>
    cases hs
    exact h.of_le (fun i => by simp [pairs]) fun _ hi => hi

end

/-- The step lemma. -/
theorem step_keeps {a : Int × Action} (h : st.Inv ∧ st.Once) (htimely : st.Timely a) (hs : st.step a = some st') :
    st'.Inv ∧ st'.Once := by
  obtain ⟨hinv, honce⟩ := h
  obtain ⟨hnow, hs⟩ := ite_none_right_eq_some.mp hs
  have hlater := hinv.later hnow
  have hsame : Once { st with now := a.1 } := honce
  exact ⟨hlater.act htimely hs, hsame.act hlater htimely hs⟩

/-- In every state that a run of timely steps reaches, revocation is exact. -/
theorem exact_of_timely (now : Int) (acts : List (Int × Action)) (st : State)
    (hrun : Runs.run State.step acts (initial now) = some st)
    (htimely : Runs.Meets State.step Timely acts (initial now)) : st.Exact := by
  obtain ⟨hinv, honce⟩ := Runs.keeps (fun _ _ _ => step_keeps) ⟨inv_initial now, once_initial now⟩ htimely hrun
  exact hinv.exact honce

/-- A token is rotated, and used again: everything is revoked. A week later the user signs in anew. -/
def reuse : List (Int × Action) :=
  [(0, .login), (10 * second, .refreshTokensWithRotation 1), (10 * second, .statement 0), (10 * second, .statement 0),
    (10 * second, .statement 0), (20 * second, .refreshTokensWithRotation 1), (20 * second, .statement 1),
    (20 * second, .statement 1), (20 * second, .statement 1), (20 * second, .statement 1),
    (30 * second, .refreshTokensWithRotation 3), (30 * second, .statement 2), (30 * second, .statement 2),
    (700000 * second, .cleanupExpired), (700000 * second, .login), (700010 * second, .refreshTokensWithRotation 5),
    (700010 * second, .statement 3), (700010 * second, .statement 3), (700010 * second, .statement 3)]

theorem reuse_exact : ∃ st, Runs.run State.step reuse (initial 0) = some st ∧ st.Exact ∧ st.tokens.length = 8 ∧
    st.spent = [5, 1] ∧ st.revoked = 4 := by
  have hrun : ∃ st, Runs.run State.step reuse (initial 0) = some st ∧ st.tokens.length = 8 ∧ st.spent = [5, 1] ∧
      st.revoked = 4 := ⟨_, rfl, by decide +kernel⟩
  obtain ⟨st, hst, hrest⟩ := hrun
  exact ⟨st, hst, exact_of_timely 0 reuse st hst (by decide +kernel), hrest⟩

/-- A sign-out and a new sign-in. -/
def signInAgain : List (Int × Action) :=
  [(0, .login), (second, .revokeAllTokens), (second, .statement 0), (second, .statement 0), (2 * second, .login)]

/-- Then a second sign-out, and a quarter of an hour. -/
def signOutTwice : List (Int × Action) :=
  signInAgain ++ [(3 * second, .revokeAllTokens), (3 * second, .statement 1), (901500000000, .cleanupExpired)]

/-- A rotation that has consumed its token when the sign-out comes, and a quarter of an hour. -/
def rotateMeanwhile : List (Int × Action) :=
  [(0, .login), (second, .refreshTokensWithRotation 1), (second, .statement 0), (second, .statement 0),
    (2 * second, .revokeAllTokens), (2 * second, .statement 1), (2 * second, .statement 1), (3 * second, .statement 0),
    (902500000000, .cleanupExpired)]

/-- The new session is refused, and the revoked ones are let in again. -/
theorem sign_out_not_exact : (∃ st, Runs.run State.step signInAgain (initial 0) = some st ∧ ¬ st.Exact) ∧
    (∃ st, Runs.run State.step signOutTwice (initial 0) = some st ∧ ¬ st.Exact) ∧
    ∃ st, Runs.run State.step rotateMeanwhile (initial 0) = some st ∧ ¬ st.Exact := by
  refine ⟨⟨_, rfl, fun h => ?_⟩, ⟨_, rfl, fun h => ?_⟩, ⟨_, rfl, fun h => ?_⟩⟩
  · have haccepted := h.accepted 2 ⟨.access, 902 * second, none, 2, true⟩ (by decide +kernel) rfl rfl (by decide +kernel)
      (by decide +kernel)
    revert haccepted
    decide +kernel
  · have hrefused := h.refused 2 ⟨.access, 902 * second, none, 2, false⟩ (by decide +kernel) (by decide +kernel)
      (by decide +kernel)
    revert hrefused
    decide +kernel
  · have hrefused := h.refused 2 ⟨.access, 903 * second, some 1, 0, true⟩ (by decide +kernel) (by decide +kernel)
      (by decide +kernel)
    revert hrefused
    decide +kernel

end State

end LibreServ.SessionTokens
