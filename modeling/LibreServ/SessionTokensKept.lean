import LibreServ.SessionTokens

/-! When the revocation of sessions is exact, and the invariant behind it. -/

namespace LibreServ.SessionTokens

open List

variable {type : TokenType}

def Row.sentinel (r : Row) : Bool :=
  match r.key with
  | .revokeAll _ => true
  | .jti _ => false

/-- The token the next statement of the call looks at or consumes. -/
def Call.token : Call → Option Nat
  | .check token | .consume token => some token
  | _ => none

/-- How many tokens there were when the `RevokeAllTokens` began that is between its statements. -/
def Call.begun : Call → Nat
  | .revokeRefresh issued => issued
  | _ => 0

namespace State

variable {st st' : State} {i : Nat} {t : Token}

/-- How many pairs were obtained with a refresh token. -/
def pairs (st : State) (token : Nat) : Nat := st.tokens.countP fun t => t.type = .refresh ∧ t.parent = some token

/-- What revocation should do. A `RevokeAllTokens` reaches the tokens issued before it began, and those obtained by
rotating one of them. -/
structure Exact (st : State) : Prop where
  once : ∀ token, st.pairs token ≤ 1
  refused : ∀ (i : Nat) (t : Token), st.tokens[i]? = some t → t.root < st.revoked → st.now < t.exp →
    st.isRevokedOrUserRevokedAll i t.type = true
  accepted : ∀ (i : Nat) (t : Token), st.tokens[i]? = some t → t.parent = none → t.clean = true → i ∉ st.spent →
    st.now < t.exp → st.isRevokedOrUserRevokedAll i t.type = false

/-- The row for all tokens of its kind outlives the token. -/
def Covered (st : State) (t : Token) : Prop :=
  st.now < t.exp → ∃ r ∈ st.rows, r.key = .revokeAll t.type ∧ r.type = t.type ∧ t.exp ≤ r.expires_at

/-- What a statement has to find. A refresh token is consumed before it expires, or while the row it was consumed with is
still there. No pair is made of a token that a `RevokeAllTokens` reaches, be it finished or between its statements. An
INSERT of `RevokeAllTokens` that meets a row of its kind finds it outlive every token it stands for. -/
def CallTimely (st : State) : Call → Prop
  | .consume token => ∀ t ∈ st.tokens[token]?, st.now < t.exp ∨ (token ∈ st.spent → st.has (.jti token) = true)
  | .mint token => ∀ t ∈ st.tokens[token]?, st.revoked ≤ t.root ∧ ∀ c ∈ st.calls, c.begun ≤ t.root
  | .revokeAll => st.has (.revokeAll .access) = true → ∀ t ∈ st.tokens, st.Covered t
  | .revokeRefresh issued =>
    st.has (.revokeAll .refresh) = true → ∀ t ∈ st.tokens, t.type = .refresh → t.root < issued → st.Covered t
  | _ => True

/-- A login finds no row for all tokens that is still in force, unless a `RevokeAllTokens` is under way. -/
def ActTimely (st : State) : Action → Prop
  | .login => st.revoking = false → ∀ r ∈ st.rows, r.sentinel = true → r.expires_at ≤ st.now
  | .statement k => ∀ c ∈ st.calls[k]?, st.CallTimely c
  | _ => True

def Timely (st : State) (a : Int × Action) : Prop := ActTimely { st with now := a.1 } a.2

instance (st : State) (t : Token) : Decidable (st.Covered t) := inferInstanceAs (Decidable (_ → _))

instance (st : State) : ∀ c, Decidable (st.CallTimely c)
  | .consume token => inferInstanceAs (Decidable (∀ t ∈ st.tokens[token]?, _ ∨ (_ → _)))
  | .mint token => inferInstanceAs (Decidable (∀ t ∈ st.tokens[token]?, _ ∧ ∀ c ∈ st.calls, _))
  | .revokeAll => inferInstanceAs (Decidable (_ → ∀ t ∈ st.tokens, st.Covered t))
  | .revokeRefresh _ => inferInstanceAs (Decidable (_ → ∀ t ∈ st.tokens, _ → _ → st.Covered t))
  | .check _ | .reused | .ended => .isTrue trivial

instance (st : State) (a : Int × Action) : Decidable (st.Timely a) :=
  match a with
  | (now, .login) => inferInstanceAs (Decidable (State.revoking { st with now := now } = false → ∀ r ∈ st.rows, _ → _))
  | (now, .statement k) => inferInstanceAs (Decidable (∀ c ∈ st.calls[k]?, CallTimely { st with now := now } c))
  | (_, .refreshTokensWithRotation _) | (_, .revokeRefreshToken _) | (_, .revokeAllTokens) | (_, .cleanupExpired)
  | (_, .crash) => .isTrue trivial

/-! ### The invariant -/

/-- What is known of a call under way. -/
structure Fits (st : State) (c : Call) : Prop where
  begun_le : c.begun ≤ st.tokens.length
  known : ∀ i ∈ c.token, ∃ t, st.tokens[i]? = some t ∧ t.type = .refresh
  covered : ∀ t ∈ st.tokens, t.type = .access → t.root < c.begun → st.Covered t
  unclean : c.revoking = true → ∀ t ∈ st.tokens, t.clean = false

structure Inv (st : State) : Prop where
  issued : ∀ t ∈ st.tokens, t.exp ≤ st.now + expiry t.type
  revoked_le : st.revoked ≤ st.tokens.length
  calls : ∀ c ∈ st.calls, st.Fits c
  refused : ∀ t ∈ st.tokens, t.root < st.revoked → st.Covered t
  clean : ∀ t ∈ st.tokens, t.parent = none → t.clean = true → ∀ r ∈ st.rows, r.sentinel = true → r.expires_at ≤ st.now
  spent : ∀ i ∈ st.spent, ∃ t, st.tokens[i]? = some t ∧
    (st.now < t.exp → ∃ r ∈ st.rows, r.key = .jti i ∧ t.exp ≤ r.expires_at)
  jti : ∀ r ∈ st.rows, ∀ i, r.key = .jti i → i ∈ st.spent

/-- The pairs obtained with a token, and those about to be. -/
def Once (st : State) : Prop := ∀ i, st.pairs i + st.calls.count (.mint i) ≤ if i ∈ st.spent then 1 else 0

theorem Covered.revoked (h : st.Covered t) (hnow : st.now < t.exp) : st.isRevokedOrUserRevokedAll i t.type = true := by
  obtain ⟨r, hr, hkey, htype, hexp⟩ := h hnow
  apply any_eq_true.mpr
  refine ⟨r, hr, ?_⟩
  simp only [decide_eq_true_eq]
  exact ⟨htype, .inr hkey, Int.lt_of_lt_of_le hnow hexp⟩

/-- The invariant gives what is asked for. -/
theorem Inv.exact (h : st.Inv) (honce : st.Once) : st.Exact := by
  refine ⟨fun token => ?_, fun i t ht hroot hnow => ?_, fun i t ht hlogin hclean hspent hnow => ?_⟩
  · have hle := honce token
    split at hle <;> omega
  · exact (h.refused t (mem_of_getElem? ht) hroot).revoked hnow
  · apply any_eq_false.mpr
    intro r hr
    simp only [decide_eq_true_eq, not_and]
    rintro - (hkey | hkey)
    · exact absurd (h.jti r hr i hkey) hspent
    · have hle := h.clean t (mem_of_getElem? ht) hlogin hclean r hr (by rw [Row.sentinel, hkey])
      omega

theorem inv_initial (now : Int) : (initial now).Inv where
  issued _ h := nomatch h
  revoked_le := Nat.le_refl 0
  calls _ h := nomatch h
  refused _ h := nomatch h
  clean _ h := nomatch h
  spent _ h := nomatch h
  jti _ h := nomatch h

theorem once_initial (now : Int) : (initial now).Once := fun _ => Nat.zero_le _

/-! ### What keeps it -/

/-- Time passes. -/
theorem Inv.later (h : st.Inv) {now : Int} (hnow : st.now ≤ now) : Inv { st with now := now } := by
  have hcov : ∀ t, st.Covered t → Covered { st with now := now } t := fun t ht hlt => ht (Int.lt_of_le_of_lt hnow hlt)
  refine ⟨fun t ht => ?_, h.revoked_le, fun c hc => ?_, fun t ht hr => hcov t (h.refused t ht hr), fun t ht hl hc r hr hs => ?_,
    fun i hi => ?_, h.jti⟩
  · have hle := h.issued t ht
    change t.exp ≤ now + expiry t.type
    omega
  · obtain ⟨hle, hknown, hcovered, hunclean⟩ := h.calls c hc
    exact ⟨hle, hknown, fun t ht htype hr => hcov t (hcovered t ht htype hr), hunclean⟩
  · exact Int.le_trans (h.clean t ht hl hc r hr hs) hnow
  · obtain ⟨t, ht, hrow⟩ := h.spent i hi
    exact ⟨t, ht, fun hlt => hrow (Int.lt_of_le_of_lt hnow hlt)⟩

/-- Calls go on, begin or stop. -/
theorem Inv.setCalls (h : st.Inv) {calls : List Call} (hold : ∀ c ∈ calls, c ∈ st.calls ∨ st.Fits c) :
    Inv { st with calls := calls } := by
  refine ⟨h.issued, h.revoked_le, fun c hc => ?_, h.refused, h.clean, h.spent, h.jti⟩
  have hfits : st.Fits c := (hold c hc).elim (h.calls c) id
  exact ⟨hfits.begun_le, hfits.known, hfits.covered, hfits.unclean⟩

theorem Inv.setCall (h : st.Inv) {k : Nat} {c : Call} (hfits : st.Fits c) : (st.setCall k c).Inv := by
  apply h.setCalls
  intro c' hc'
  rcases mem_or_eq_of_mem_set hc' with hc' | rfl
  · exact .inl hc'
  · exact .inr hfits

/-- A call that is not between the statements of `RevokeAllTokens`. -/
theorem fits_of_idle {c : Call} (hzero : c.begun = 0) (hidle : c.revoking = false)
    (hknown : ∀ i ∈ c.token, ∃ t, st.tokens[i]? = some t ∧ t.type = .refresh) : st.Fits c := by
  refine ⟨?_, hknown, fun t _ _ hr => ?_, fun hc => ?_⟩
  · rw [hzero]
    exact Nat.zero_le _
  · rw [hzero] at hr
    exact absurd hr (Nat.not_lt_zero _)
  · rw [hidle] at hc
    cases hc

theorem Covered.insert {key : Key} (h : st.Covered t) : (st.insert key type).Covered t := by
  intro hnow
  obtain ⟨r, hr, hrest⟩ := h hnow
  exact ⟨r, mem_append_left _ hr, hrest⟩

theorem Fits.insert {key : Key} {c : Call} (h : st.Fits c) : (st.insert key type).Fits c :=
  ⟨h.begun_le, h.known, fun t ht htype hr => (h.covered t ht htype hr).insert, h.unclean⟩

section

variable (h : st.Inv)

include h

/-- A row for all tokens outlives every token there is. -/
theorem Inv.covered_insert (ht : t ∈ st.tokens) (htype : t.type = type) :
    (st.insert (.revokeAll type) type).Covered t := by
  intro _
  refine ⟨⟨.revokeAll type, type, st.now + expiry type⟩, mem_append_right _ (mem_singleton_self _), ?_, htype.symm, ?_⟩
  · rw [htype]
  · exact htype ▸ h.issued t ht

/-- The rows of spent tokens are still there after an INSERT. -/
theorem Inv.spent_insert {key : Key} : ∀ i ∈ st.spent, ∃ t, st.tokens[i]? = some t ∧
    (st.now < t.exp → ∃ r ∈ (st.insert key type).rows, r.key = .jti i ∧ t.exp ≤ r.expires_at) := by
  intro i hi
  obtain ⟨t, ht, hrow⟩ := h.spent i hi
  refine ⟨t, ht, fun hnow => ?_⟩
  obtain ⟨r, hr, hrest⟩ := hrow hnow
  exact ⟨r, mem_append_left _ hr, hrest⟩

/-- A row for all tokens is written while no token is clean. -/
theorem Inv.insertSentinel (type : TokenType) (hunclean : ∀ t ∈ st.tokens, t.clean = false) :
    (st.insert (.revokeAll type) type).Inv := by
  refine ⟨h.issued, h.revoked_le, fun c hc => (h.calls c hc).insert, fun t ht hr => (h.refused t ht hr).insert,
    fun t ht _ hc => ?_, h.spent_insert, fun r hr i hkey => ?_⟩
  · rw [hunclean t ht] at hc
    cases hc
  · rcases mem_append.mp hr with hr | hr
    · exact h.jti r hr i hkey
    · rw [mem_singleton.mp hr] at hkey
      cases hkey

theorem Inv.spend (ht : st.tokens[i]? = some t) (htype : t.type = .refresh) : (st.spend i).Inv := by
  have hfits : ∀ c ∈ st.calls, (st.spend i).Fits c := by
    intro c hc
    have hfits : (st.insert (.jti i) .refresh).Fits c := (h.calls c hc).insert
    exact ⟨hfits.begun_le, hfits.known, hfits.covered, hfits.unclean⟩
  refine ⟨h.issued, h.revoked_le, hfits, fun t ht hr => (h.refused t ht hr).insert, fun t' ht' hl hc r hr hs => ?_,
    fun j hj => ?_, fun r hr j hkey => ?_⟩
  · rcases mem_append.mp hr with hr | hr
    · exact h.clean t' ht' hl hc r hr hs
    · rw [mem_singleton.mp hr] at hs
      cases hs
  · rcases mem_cons.mp hj with rfl | hj
    · refine ⟨t, ht, fun _ => ⟨⟨.jti j, .refresh, st.now + expiry .refresh⟩, ?_, rfl, ?_⟩⟩
      · exact mem_append_right _ (mem_singleton_self _)
      · exact htype ▸ h.issued t (mem_of_getElem? ht)
    · exact h.spent_insert j hj
  · rcases mem_append.mp hr with hr | hr
    · exact mem_cons_of_mem _ (h.jti r hr j hkey)
    · rw [mem_singleton.mp hr] at hkey
      cases hkey
      exact mem_cons_self

/-- Only rows go that no token needs any more. -/
theorem Inv.cleanupExpired : st.cleanupExpired.Inv := by
  have hstay : ∀ r ∈ st.rows, ∀ t : Token, st.now < t.exp → t.exp ≤ r.expires_at → r ∈ st.cleanupExpired.rows := by
    intro r hr t hnow hexp
    refine mem_filter.mpr ⟨hr, ?_⟩
    simp only [decide_eq_true_eq]
    omega
  have hcov : ∀ t, st.Covered t → st.cleanupExpired.Covered t := by
    intro t ht hnow
    obtain ⟨r, hr, hkey, htype, hexp⟩ := ht hnow
    exact ⟨r, hstay r hr t hnow hexp, hkey, htype, hexp⟩
  refine ⟨h.issued, h.revoked_le, fun c hc => ?_, fun t ht hr => hcov t (h.refused t ht hr), fun t ht hl hc r hr => ?_,
    fun i hi => ?_, fun r hr => ?_⟩
  · obtain ⟨hle, hknown, hcovered, hunclean⟩ := h.calls c hc
    exact ⟨hle, hknown, fun t ht htype hr => hcov t (hcovered t ht htype hr), hunclean⟩
  · exact h.clean t ht hl hc r (mem_filter.mp hr).1
  · obtain ⟨t, ht, hrow⟩ := h.spent i hi
    refine ⟨t, ht, fun hnow => ?_⟩
    obtain ⟨r, hr, hkey, hexp⟩ := hrow hnow
    exact ⟨r, hstay r hr t hnow hexp, hkey, hexp⟩
  · exact h.jti r (mem_filter.mp hr).1

/-- Another number of revoked tokens, of which the rows outlive all. -/
theorem Inv.setRevoked {n : Nat} (hle : n ≤ st.tokens.length)
    (hcov : ∀ t ∈ st.tokens, t.root < n → st.Covered t) : Inv { st with revoked := max st.revoked n } := by
  refine ⟨h.issued, Nat.max_le.mpr ⟨h.revoked_le, hle⟩, fun c hc => ?_, fun t ht hr => ?_, h.clean, h.spent, h.jti⟩
  · obtain ⟨hbegun, hknown, hcovered, hunclean⟩ := h.calls c hc
    exact ⟨hbegun, hknown, hcovered, hunclean⟩
  · change t.root < max st.revoked n at hr
    by_cases hlt : t.root < n
    · exact hcov t ht hlt
    · exact h.refused t ht (by omega)

end

theorem mem_unclean {t' : Token} (h : t' ∈ st.tokens.map Token.unclean) : ∃ t ∈ st.tokens, t' = t.unclean := by
  obtain ⟨t, ht, heq⟩ := mem_map.mp h
  exact ⟨t, ht, heq.symm⟩

theorem getElem?_unclean (h : st.tokens[i]? = some t) : (st.tokens.map Token.unclean)[i]? = some t.unclean := by
  rw [getElem?_map, h]
  rfl

/-- No token is clean any more. -/
theorem Inv.soil (h : st.Inv) : Inv { st with tokens := st.tokens.map Token.unclean } := by
  refine ⟨fun t' ht' => ?_, ?_, fun c hc => ⟨?_, fun i hi => ?_, fun t' ht' htype hr => ?_, fun _ t' ht' => ?_⟩,
    fun t' ht' hr => ?_, fun t' ht' _ hc => ?_, fun i hi => ?_, h.jti⟩
  · obtain ⟨t, ht, rfl⟩ := mem_unclean ht'
    exact h.issued t ht
  · rw [length_map]
    exact h.revoked_le
  · rw [length_map]
    exact (h.calls c hc).begun_le
  · obtain ⟨t, ht, htype⟩ := (h.calls c hc).known i hi
    exact ⟨t.unclean, getElem?_unclean ht, htype⟩
  · obtain ⟨t, ht, rfl⟩ := mem_unclean ht'
    exact (h.calls c hc).covered t ht htype hr
  · obtain ⟨t, -, rfl⟩ := mem_unclean ht'
    rfl
  · obtain ⟨t, ht, rfl⟩ := mem_unclean ht'
    exact h.refused t ht hr
  · obtain ⟨t, -, rfl⟩ := mem_unclean ht'
    cases hc
  · obtain ⟨t, ht, hrow⟩ := h.spent i hi
    exact ⟨t.unclean, getElem?_unclean ht, hrow⟩

/-- A pair that no `RevokeAllTokens` reaches, made while no row for all tokens is in force. -/
theorem Inv.generateTokenPair (h : st.Inv) {parent : Option Nat} {root : Nat} (hroot : st.revoked ≤ root)
    (hbegun : ∀ c ∈ st.calls, c.begun ≤ root)
    (hclean : parent = none → st.revoking = false → ∀ r ∈ st.rows, r.sentinel = true → r.expires_at ≤ st.now) :
    (st.generateTokenPair parent root).Inv := by
  have hmem : ∀ t ∈ (st.generateTokenPair parent root).tokens, t ∈ st.tokens ∨
      (t.root = root ∧ t.parent = parent ∧ t.clean = !st.revoking ∧ t.exp = st.exp t.type) := by
    intro t ht
    rcases mem_append.mp ht with ht | ht
    · exact Or.inl ht
    · rcases mem_pair.mp ht with rfl | rfl <;> exact Or.inr ⟨rfl, rfl, rfl, rfl⟩
  have hlength : st.tokens.length ≤ (st.generateTokenPair parent root).tokens.length := by
    simp [State.generateTokenPair]
  have hold : ∀ (i : Nat) (t : Token), st.tokens[i]? = some t → (st.generateTokenPair parent root).tokens[i]? = some t :=
    fun i t ht => (getElem?_append_left (List.getElem?_eq_some_iff.mp ht).1).trans ht
  refine ⟨fun t ht => ?_, Nat.le_trans h.revoked_le hlength, fun c hc => ?_, fun t ht hr => ?_, fun t ht hl hc => ?_,
    fun i hi => ?_, h.jti⟩
  · rcases hmem t ht with ht | ⟨-, -, -, hexp⟩
    · exact h.issued t ht
    · rw [hexp]
      exact Int.ediv_mul_le _ (by decide)
  · obtain ⟨hle, hknown, hcovered, hunclean⟩ := h.calls c hc
    refine ⟨Nat.le_trans hle hlength, fun i hi => ?_, fun t ht htype hr => ?_, fun hrev t ht => ?_⟩
    · obtain ⟨t, ht, htype⟩ := hknown i hi
      exact ⟨t, hold i t ht, htype⟩
    · rcases hmem t ht with ht | ⟨hr', -⟩
      · exact hcovered t ht htype hr
      · have hbefore := hbegun c hc
        omega
    · have hrevoking : st.revoking = true := any_eq_true.mpr ⟨c, hc, hrev⟩
      rcases hmem t ht with ht | ⟨-, -, hclean', -⟩
      · exact hunclean hrev t ht
      · rw [hclean', hrevoking]
        rfl
  · rcases hmem t ht with ht | ⟨hr', -⟩
    · exact h.refused t ht hr
    · change t.root < st.revoked at hr
      omega
  · rcases hmem t ht with ht | ⟨-, hparent, hclean', -⟩
    · exact h.clean t ht hl hc
    · rw [hclean'] at hc
      exact hclean (hparent.symm.trans hl) (by simpa using hc)
  · obtain ⟨t, ht, hrow⟩ := h.spent i hi
    exact ⟨t, hold i t ht, hrow⟩

end State

end LibreServ.SessionTokens
