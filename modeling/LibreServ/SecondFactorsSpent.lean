import LibreServ.SecondFactors

/-! Second factors are spent once and never all removed, exactly as long as no two calls that read the same rows both go
on to change them. -/

namespace LibreServ.SecondFactors

open List Option

namespace State

variable {Hash : Type} {verifyPassword : Hash → String → Bool} {st st' first : State Hash} {k : Nat} {c : Call Hash}

/-- How many guesses were compared with the code of an issue, and how many of them were right. -/
def compared (st : State Hash) (issue : Nat) : Nat := st.guesses.countP fun g => g.issue = issue

def succeeded (st : State Hash) (issue : Nat) : Nat := st.guesses.countP fun g => g.issue = issue ∧ g.right

def HasEnabled (st : State Hash) : Prop := ∃ m ∈ st.methods, m.enabled = true

structure Kept (first st : State Hash) : Prop where
  recovery : ∀ id, st.spent.count id ≤ 1
  mail : ∀ issue, st.succeeded issue ≤ 1 ∧ st.compared issue ≤ 5
  methods : first.HasEnabled → st.HasEnabled

/-- No other call has marked the row since this one read it; and a method is only deleted while it is not the only
enabled one. -/
def CallApart (st : State Hash) : Call Hash → Prop
  | .marking id => id ∉ st.spent
  | .deleting method => (∃ m ∈ st.methods, m.id = method ∧ m.enabled = true) → ∃ m ∈ st.methods, m.id ≠ method ∧ m.enabled = true
  | _ => True

def Apart (st : State Hash) : Action Hash → Prop
  | .statement k true => ∀ c ∈ st.calls[k]?, st.CallApart c
  | _ => True

instance (st : State Hash) : ∀ c, Decidable (st.CallApart c)
  | .marking _ => inferInstanceAs (Decidable (¬ _))
  | .deleting _ => inferInstanceAs (Decidable (_ → _))
  | .verify _ | .generate _ | .storing _ | .delete _ | .counting _ | .ended => .isTrue trivial

instance (st : State Hash) : ∀ a, Decidable (st.Apart a)
  | .statement k true => inferInstanceAs (Decidable (∀ c ∈ st.calls[k]?, st.CallApart c))
  | .statement _ false | .call _ | .issueEmailOTP .. | .verifyEmailOTP .. => .isTrue trivial

/-! ### What a step does -/

section

variable (h : st.statement verifyPassword k c = some st')

include h

/-- What a statement does to the rows: it marks a code, it removes a method, or it leaves both alone. -/
theorem statement_cases : (∃ id, c = .marking id ∧ st'.spent = id :: st.spent ∧ st'.methods = st.methods) ∨
      (∃ method, c = .deleting method ∧ st'.spent = st.spent ∧
        st'.methods = st.methods.filter fun m => m.id ≠ method) ∨
      (st.CallApart c ∧ st'.spent = st.spent ∧ st'.methods = st.methods) := by
  cases c with
  | marking id =>
    cases h
    exact .inl ⟨id, rfl, rfl, rfl⟩
  | deleting method =>
    cases h
    exact .inr (.inl ⟨method, rfl, rfl, rfl⟩)
  | verify code =>
    simp only [statement] at h
    split at h <;> cases h <;> exact .inr (.inr ⟨trivial, rfl, rfl⟩)
  | storing hashes => cases hashes <;> cases h <;> exact .inr (.inr ⟨trivial, rfl, rfl⟩)
  | delete method =>
    simp only [statement] at h
    split at h <;> cases h <;> exact .inr (.inr ⟨trivial, rfl, rfl⟩)
  | generate hashes | counting method =>
    cases h
    exact .inr (.inr ⟨trivial, rfl, rfl⟩)
  | ended => cases h

/-- A statement touches no code sent by mail. -/
theorem statement_mail :
    st'.emailOTPs = st.emailOTPs ∧ st'.issues = st.issues ∧ st'.guesses = st.guesses := by
  cases c with
  | verify code | delete method =>
    simp only [statement] at h
    split at h <;> cases h <;> exact ⟨rfl, rfl, rfl⟩
  | storing hashes => cases hashes <;> cases h <;> exact ⟨rfl, rfl, rfl⟩
  | marking id | deleting method | generate hashes | counting method =>
    cases h
    exact ⟨rfl, rfl, rfl⟩
  | ended => cases h

end

theorem issueEmailOTP_rows (method code : String) (now : Int) :
    (st.issueEmailOTP method code now).spent = st.spent ∧ (st.issueEmailOTP method code now).methods = st.methods :=
  ⟨rfl, rfl⟩

theorem verifyEmailOTP_rows (method code : String) (now : Int) :
    (st.verifyEmailOTP method code now).spent = st.spent ∧ (st.verifyEmailOTP method code now).methods = st.methods := by
  unfold verifyEmailOTP
  split
  · exact ⟨rfl, rfl⟩
  · split
    · exact ⟨rfl, rfl⟩
    · split <;> exact ⟨rfl, rfl⟩

/-- What a step does to the rows, and whether it was taken apart from the others. -/
theorem step_cases {a : Action Hash} (h : step verifyPassword st a = some st') :
    (∃ id, (st.Apart a ↔ id ∉ st.spent) ∧ st'.spent = id :: st.spent ∧ st'.methods = st.methods) ∨
      (∃ method, (st.Apart a ↔ st.CallApart (.deleting method)) ∧ st'.spent = st.spent ∧
        st'.methods = st.methods.filter fun m => m.id ≠ method) ∨
      (st.Apart a ∧ st'.spent = st.spent ∧ st'.methods = st.methods) := by
  cases a with
  | call r =>
    cases h
    exact .inr (.inr ⟨trivial, rfl, rfl⟩)
  | issueEmailOTP method code now =>
    cases h
    exact .inr (.inr ⟨trivial, issueEmailOTP_rows method code now⟩)
  | verifyEmailOTP method code now =>
    cases h
    exact .inr (.inr ⟨trivial, verifyEmailOTP_rows method code now⟩)
  | statement k done =>
    obtain ⟨c, hc, hs⟩ := bind_eq_some_iff.mp h
    cases done with
    | false =>
      cases hs
      exact .inr (.inr ⟨trivial, rfl, rfl⟩)
    | true =>
      have hapart : st.Apart (.statement k true) ↔ st.CallApart c := by
        constructor
        · exact fun hall => hall c hc
        · intro hone c' hc'
          obtain rfl : c = c' := some.inj (hc.symm.trans hc')
          exact hone
      rcases statement_cases hs with ⟨id, rfl, hspent, hmethods⟩ | ⟨method, rfl, hspent, hmethods⟩ | ⟨hone, hrows⟩
      · exact .inl ⟨id, hapart, hspent, hmethods⟩
      · exact .inr (.inl ⟨method, hapart, hspent, hmethods⟩)
      · exact .inr (.inr ⟨hapart.mpr hone, hrows⟩)

/-! ### Recovery codes and methods -/

/-- What has to be so of the rows. -/
def RowsKept (had : Prop) (st : State Hash) : Prop := (∀ id, st.spent.count id ≤ 1) ∧ (had → st.HasEnabled)

/-- A user without an enabled method is given none by these calls. -/
def NoneGiven (had : Prop) (st : State Hash) : Prop := had ∨ ¬ st.HasEnabled

theorem hasEnabled_filter {method : String} (hm : st'.methods = st.methods.filter fun m => m.id ≠ method) :
    st'.HasEnabled ↔ ∃ m ∈ st.methods, m.id ≠ method ∧ m.enabled = true := by
  unfold HasEnabled
  simp only [hm, mem_filter, decide_eq_true_eq, and_assoc]

theorem hasEnabled_of_same (hm : st'.methods = st.methods) : st'.HasEnabled ↔ st.HasEnabled := by
  unfold HasEnabled
  rw [hm]

variable {had : Prop} {a : Action Hash}

theorem hasEnabled_of_step (h : step verifyPassword st a = some st') (hafter : st'.HasEnabled) : st.HasEnabled := by
  rcases step_cases h with ⟨id, -, -, hm⟩ | ⟨method, -, -, hm⟩ | ⟨-, -, hm⟩
  · exact (hasEnabled_of_same hm).mp hafter
  · obtain ⟨m, hmem, -, hen⟩ := (hasEnabled_filter hm).mp hafter
    exact ⟨m, hmem, hen⟩
  · exact (hasEnabled_of_same hm).mp hafter

theorem noneGiven_step (hnone : NoneGiven had st) (h : step verifyPassword st a = some st') : NoneGiven had st' :=
  hnone.imp_right fun hno hafter => hno (hasEnabled_of_step h hafter)

theorem rowsKept_step (hkept : RowsKept had st) (hapart : st.Apart a) (h : step verifyPassword st a = some st') :
    RowsKept had st' := by
  obtain ⟨hcount, hhas⟩ := hkept
  rcases step_cases h with ⟨id, hiff, hs, hm⟩ | ⟨method, hiff, hs, hm⟩ | ⟨-, hs, hm⟩
  · refine ⟨fun id' => ?_, fun hd => (hasEnabled_of_same hm).mpr (hhas hd)⟩
    have hnot : st.spent.count id = 0 := count_eq_zero.mpr (hiff.mp hapart)
    rw [hs, count_cons]
    split
    · next heq =>
        obtain rfl : id = id' := by simpa using heq
        omega
    · exact hcount id'
  · refine ⟨fun id' => by rw [hs]; exact hcount id', fun hd => (hasEnabled_filter hm).mpr ?_⟩
    obtain ⟨m, hmem, hen⟩ := hhas hd
    by_cases hid : m.id = method
    · exact hiff.mp hapart ⟨m, hmem, hid, hen⟩
    · exact ⟨m, hmem, hid, hen⟩
  · exact ⟨fun id' => by rw [hs]; exact hcount id', fun hd => (hasEnabled_of_same hm).mpr (hhas hd)⟩

/-- What is kept after a step was kept before, and the step was taken apart from the others. -/
theorem rowsKept_before (hnone : NoneGiven had st) (h : step verifyPassword st a = some st') (hkept : RowsKept had st') :
    RowsKept had st ∧ st.Apart a := by
  obtain ⟨hcount, hhas⟩ := hkept
  have hhas' : had → st.HasEnabled := fun hd => hasEnabled_of_step h (hhas hd)
  rcases step_cases h with ⟨id, hiff, hs, hm⟩ | ⟨method, hiff, hs, hm⟩ | ⟨hapart, hs, hm⟩
  · rw [hs] at hcount
    refine ⟨⟨fun id' => Nat.le_trans count_le_count_cons (hcount id'), hhas'⟩, hiff.mpr fun hmem => ?_⟩
    have htwice := hcount id
    have hone : 0 < st.spent.count id := count_pos_iff.mpr hmem
    rw [count_cons_self] at htwice
    omega
  · rw [hs] at hcount
    refine ⟨⟨hcount, hhas'⟩, hiff.mpr ?_⟩
    rintro ⟨m, hmem, -, hen⟩
    rcases hnone with hd | hno
    · exact (hasEnabled_filter hm).mp (hhas hd)
    · exact absurd ⟨m, hmem, hen⟩ hno
  · rw [hs] at hcount
    exact ⟨⟨hcount, hhas'⟩, hapart⟩

/-! ### Codes sent by mail -/

/-- The code that waits for a method is one that no guess was right for, and its tries are the guesses at it. -/
structure Mail (st : State Hash) : Prop where
  waiting : ∀ method d, st.emailOTPs method = some d →
    d.issue < st.issues ∧ st.compared d.issue = d.tries ∧ d.tries ≤ 5 ∧ st.succeeded d.issue = 0
  apart : ∀ method method' d d', st.emailOTPs method = some d → st.emailOTPs method' = some d' → d.issue = d'.issue →
    method = method'
  known : ∀ g ∈ st.guesses, g.issue < st.issues
  bounded : ∀ issue, st.succeeded issue ≤ 1 ∧ st.compared issue ≤ 5

theorem mail_of_same (h : st.Mail) (hotps : st'.emailOTPs = st.emailOTPs) (hissues : st'.issues = st.issues)
    (hguesses : st'.guesses = st.guesses) : st'.Mail := by
  obtain ⟨hwaiting, hapart, hknown, hbounded⟩ := h
  constructor
  · simpa only [compared, succeeded, hotps, hissues, hguesses] using hwaiting
  · simpa only [hotps] using hapart
  · simpa only [hissues, hguesses] using hknown
  · simpa only [compared, succeeded, hguesses] using hbounded

/-- A code may be dropped. -/
theorem Mail.drop (h : st.Mail) (method : String) :
    ({ st with emailOTPs := Function.update st.emailOTPs method none }).Mail := by
  have hold : ∀ m d, Function.update st.emailOTPs method none m = some d → st.emailOTPs m = some d := by
    intro m d hm
    by_cases heq : m = method
    · subst heq
      rw [Function.update_self] at hm
      cases hm
    · rwa [Function.update_of_ne heq] at hm
  exact ⟨fun m d hm => h.waiting m d (hold m d hm), fun m m' d d' hm hm' => h.apart m m' d d' (hold m d hm) (hold m' d' hm'),
    h.known, h.bounded⟩

theorem Mail.issueEmailOTP (h : st.Mail) (method code : String) (now : Int) : (st.issueEmailOTP method code now).Mail := by
  have hfresh : ∀ p : Guess → Bool, st.guesses.countP (fun g => g.issue = st.issues ∧ p g) = 0 := by
    intro p
    apply countP_eq_zero.mpr
    intro g hg
    have hlt := h.known g hg
    simp only [decide_eq_true_eq]
    omega
  have hold : ∀ m d, (st.issueEmailOTP method code now).emailOTPs m = some d →
      (m = method ∧ d = ⟨code, now + otpTTL, 0, st.issues⟩) ∨ (m ≠ method ∧ st.emailOTPs m = some d) := by
    intro m d hm
    change Function.update st.emailOTPs method _ m = some d at hm
    by_cases heq : m = method
    · subst heq
      rw [Function.update_self] at hm
      cases hm
      exact .inl ⟨rfl, rfl⟩
    · rw [Function.update_of_ne heq] at hm
      exact .inr ⟨heq, hm⟩
  refine ⟨?_, ?_, ?_, h.bounded⟩
  · intro m d hm
    rcases hold m d hm with ⟨-, rfl⟩ | ⟨-, hm⟩
    · refine ⟨Nat.lt_succ_self _, ?_, Nat.zero_le 5, ?_⟩
      · simpa [compared, State.issueEmailOTP] using hfresh fun _ => true
      · simpa [succeeded, State.issueEmailOTP] using hfresh Guess.right
    · obtain ⟨hlt, hrest⟩ := h.waiting m d hm
      exact ⟨Nat.lt_succ_of_lt hlt, hrest⟩
  · intro m m' d d' hm hm' heq
    rcases hold m d hm with ⟨rfl, rfl⟩ | ⟨-, hbefore⟩ <;> rcases hold m' d' hm' with ⟨rfl, rfl⟩ | ⟨-, hbefore'⟩
    · rfl
    · exact absurd (heq ▸ (h.waiting m' d' hbefore').1) (Nat.lt_irrefl _)
    · exact absurd (heq ▸ (h.waiting m d hbefore).1) (Nat.lt_irrefl _)
    · exact h.apart m m' d d' hbefore hbefore' heq
  · intro g hg
    exact Nat.lt_succ_of_lt (h.known g hg)

/-- A guess counts for its own issue only. -/
theorem compared_guess (st : State Hash) (otps : String → Option EmailOTP) (g : Guess) (issue : Nat) :
    compared { st with emailOTPs := otps, guesses := g :: st.guesses } issue =
      st.compared issue + if g.issue = issue then 1 else 0 := by
  simp [compared, countP_cons]

theorem succeeded_guess (st : State Hash) (otps : String → Option EmailOTP) (g : Guess) (issue : Nat) :
    succeeded { st with emailOTPs := otps, guesses := g :: st.guesses } issue =
      st.succeeded issue + if g.issue = issue ∧ g.right = true then 1 else 0 := by
  simp [succeeded, countP_cons]

theorem Mail.verifyEmailOTP (h : st.Mail) (method code : String) (now : Int) : (st.verifyEmailOTP method code now).Mail := by
  unfold State.verifyEmailOTP
  cases hd : st.emailOTPs method with
  | none => exact h
  | some d =>
    obtain ⟨hlt, hcompared, -, hzero⟩ := h.waiting method d hd
    dsimp only
    by_cases hlate : now > d.expiresAt
    · rw [if_pos hlate]
      exact h.drop method
    rw [if_neg hlate]
    by_cases htries : d.tries ≥ 5
    · rw [if_pos htries]
      exact h.drop method
    rw [if_neg htries]
    have hother : ∀ m d', m ≠ method → st.emailOTPs m = some d' → d'.issue ≠ d.issue :=
      fun m d' hne hm heq => hne (h.apart m method d' d hm hd heq)
    have hsame : ∀ m d', Function.update st.emailOTPs method
        (if d.code ≠ code then some { d with tries := d.tries + 1 } else none) m = some d' →
        ∃ e, st.emailOTPs m = some e ∧ e.issue = d'.issue := by
      intro m d' hm
      by_cases heq : m = method
      · subst heq
        rw [Function.update_self] at hm
        obtain ⟨-, hm⟩ := ite_none_right_eq_some.mp hm
        cases hm
        exact ⟨d, hd, rfl⟩
      · rw [Function.update_of_ne heq] at hm
        exact ⟨d', hm, rfl⟩
    refine ⟨?_, ?_, ?_, ?_⟩
    · intro m d' hm
      rw [compared_guess, succeeded_guess]
      change Function.update st.emailOTPs method _ m = some d' at hm
      by_cases heq : m = method
      · subst heq
        rw [Function.update_self] at hm
        obtain ⟨hwrong, hm⟩ := ite_none_right_eq_some.mp hm
        cases hm
        simp only [hcompared, hzero, hwrong, decide_false, Bool.false_eq_true, and_false, if_true, if_false]
        exact ⟨hlt, trivial, by omega, trivial⟩
      · rw [Function.update_of_ne heq] at hm
        have hne := hother m d' heq hm
        simp only [hne.symm, if_false]
        exact h.waiting m d' hm
    · intro m m' d' d'' hm hm' heq
      obtain ⟨e, he, hissue⟩ := hsame m d' hm
      obtain ⟨e', he', hissue'⟩ := hsame m' d'' hm'
      exact h.apart m m' e e' he he' (hissue.trans (heq.trans hissue'.symm))
    · intro g hg
      rcases mem_cons.mp hg with rfl | hg
      · exact hlt
      · exact h.known g hg
    · intro issue
      rw [compared_guess, succeeded_guess]
      obtain ⟨hs, hc⟩ := h.bounded issue
      by_cases heq : d.issue = issue
      · subst heq
        simp only [if_true]
        refine ⟨?_, by omega⟩
        split <;> omega
      · simp only [heq, if_false]
        exact ⟨hs, hc⟩

theorem mail_step {a : Action Hash} (hmail : st.Mail) (h : step verifyPassword st a = some st') : st'.Mail := by
  cases a with
  | call r =>
    cases h
    exact mail_of_same hmail rfl rfl rfl
  | issueEmailOTP method code now =>
    cases h
    exact hmail.issueEmailOTP method code now
  | verifyEmailOTP method code now =>
    cases h
    exact hmail.verifyEmailOTP method code now
  | statement k done =>
    obtain ⟨c, -, hs⟩ := bind_eq_some_iff.mp h
    cases done with
    | false =>
      cases hs
      exact mail_of_same hmail rfl rfl rfl
    | true =>
      obtain ⟨hotps, hissues, hguesses⟩ := statement_mail hs
      exact mail_of_same hmail hotps hissues hguesses

theorem mail_initial (codes : List (RecoveryCode Hash)) (nextId : Nat) (methods : List Method) :
    (initial codes nextId methods).Mail := by
  constructor
  · exact nofun
  · exact nofun
  · exact nofun
  · exact fun _ => ⟨Nat.zero_le 1, Nat.zero_le 5⟩

/-- Second factors are spent once and never all removed, in exactly the runs in which the calls stay apart. -/
theorem kept_iff_apart (verifyPassword : Hash → String → Bool) (codes : List (RecoveryCode Hash)) (nextId : Nat)
    (methods : List Method) (acts : List (Action Hash)) (st : State Hash)
    (hrun : Runs.run (step verifyPassword) acts (initial codes nextId methods) = some st) :
    Kept (initial codes nextId methods) st ↔
      Runs.Meets (step verifyPassword) Apart acts (initial codes nextId methods) := by
  have hmail := Runs.always (fun _ _ _ => mail_step) (mail_initial codes nextId methods) hrun
  have hstart : RowsKept (initial codes nextId methods).HasEnabled (initial codes nextId methods) :=
    ⟨fun _ => Nat.zero_le 1, id⟩
  constructor
  · intro hkept
    have hnone : NoneGiven (initial codes nextId methods).HasEnabled (initial codes nextId methods) := Classical.em _
    exact (Runs.meets_of_good (fun _ _ _ => noneGiven_step) (fun _ _ _ => rowsKept_before) hnone hrun
      ⟨hkept.recovery, hkept.methods⟩).2
  · intro hmeets
    have hrows := Runs.keeps (fun _ _ _ => rowsKept_step) hstart hmeets hrun
    exact ⟨hrows.1, hmail.bounded, hrows.2⟩

/-- A user with two codes and two methods. -/
def someone : State String := initial [⟨0, "a", false⟩, ⟨1, "b", false⟩] 2 [⟨"totp", true⟩, ⟨"email", true⟩]

/-- One call after the other. -/
def inTurn : List (Action String) :=
  [.call (.verifyRecoveryCode "a"), .statement 0 true, .statement 0 true, .call (.verifyRecoveryCode "a"),
    .statement 1 true, .call (.deleteMFAMethod "totp"), .statement 2 true, .statement 2 true, .statement 2 true,
    .call (.deleteMFAMethod "email"), .statement 3 true, .statement 3 true]

theorem in_turn_kept : ∃ st, Runs.run (step fun hash code => hash = code) inTurn someone = some st ∧
    Kept someone st ∧ st.spent = [0] ∧ st.methods = [⟨"email", true⟩] := by
  have hrun : ∃ st, Runs.run (step fun hash code => hash = code) inTurn someone = some st ∧ st.spent = [0] ∧
      st.methods = [⟨"email", true⟩] := ⟨_, rfl, by decide +kernel⟩
  obtain ⟨st, hst, hspent, hmethods⟩ := hrun
  exact ⟨st, hst, (kept_iff_apart _ _ _ _ inTurn st hst).mpr (by decide +kernel), hspent, hmethods⟩

/-- Two calls with the same code, and two that delete a method each: both read before either writes. -/
def overlapping : List (Action String) :=
  [.call (.verifyRecoveryCode "a"), .call (.verifyRecoveryCode "a"), .statement 0 true, .statement 1 true,
    .statement 0 true, .statement 1 true, .call (.deleteMFAMethod "totp"), .call (.deleteMFAMethod "email"),
    .statement 2 true, .statement 3 true, .statement 2 true, .statement 3 true, .statement 2 true, .statement 3 true]

theorem overlapping_not_kept : ∃ st, Runs.run (step fun hash code => hash = code) overlapping someone = some st ∧
    st.spent.count 0 = 2 ∧ someone.HasEnabled ∧ ¬ st.HasEnabled ∧ ¬ Kept someone st := by
  refine ⟨_, rfl, by decide +kernel, ⟨⟨"totp", true⟩, by decide +kernel, rfl⟩, ?_, ?_⟩
  · rintro ⟨m, hm, -⟩
    cases hm
  · intro hkept
    exact absurd (hkept.recovery 0) (by decide +kernel)

end State

end LibreServ.SecondFactors
