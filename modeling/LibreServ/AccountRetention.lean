import LibreServ.ConnectStorage

/-! When an account's cloud copies are deleted because nobody pays for them, from `handlers/retention.go`, the billing
events of `handlers/billing.go` and `AttachCard` and `CancelBilling` of `handlers/account.go`. One account is followed;
each statement of a call is a step of its own, and a retention pass lists the account in one step and purges it in a
later one. -/

namespace LibreServ.Retention

open Files (Text)
open Connect (backupRetentionDays)

/-- What the row of `accounts` says about payment; the account is locked while it has no card. -/
structure Account where
  hasCard : Bool
  subscription : Text
  backupPurgeAfter : Option Int
  deriving DecidableEq

/-- Where a call stands. In `scheduleBackupPurge`, `billing` says that `CancelBilling` called it. -/
inductive Call where
  /-- `lockSubscription` before its `UPDATE`. -/
  | lock (sub : Text)
  /-- `beginBackupPurgeForSubscription` before it looks for the account. -/
  | lockFind (sub : Text)
  /-- `cancelSubscription` before it looks for the account. -/
  | cancelFind (sub : Text)
  /-- `cancelSubscription` before its `UPDATE`. -/
  | cancelLock (sub : Text)
  /-- `scheduleBackupPurge` before it reads the deadline there is. -/
  | read (billing : Bool)
  /-- There is none; before it looks at the clock. -/
  | compute (billing : Bool)
  /-- Before it writes the deadline. -/
  | write (billing : Bool) (deadline : Int)
  /-- `CancelBilling` before its `UPDATE`. -/
  | billingLock
  deriving DecidableEq

/-- Where the retention pass stands with this account; `now` is when the pass began. -/
inductive Pass where
  | begun (now : Int)
  | listed (now : Int)
  | purged
  deriving DecidableEq

/-- A purge by `ProcessRetention`, with what held when it took the account's lock. -/
structure Purge where
  time : Int
  backupPurgeAfter : Option Int
  lockedSince : Option Int
  deriving DecidableEq

structure State where
  account : Account
  calls : Table Nat Call
  nextCall : Nat
  pass : Option Pass
  clock : Int
  /-- Since when the account has had no card, for the record. -/
  lockedSince : Option Int
  /-- For the record. -/
  purges : List Purge

inductive Action where
  /-- A payment failed, or the subscription is no longer active. -/
  | lockEvent (sub : Text)
  /-- `customer.subscription.deleted`. -/
  | deletedEvent (sub : Text)
  | cancelBilling
  /-- `unlockFromEvent`. -/
  | unlockEvent (sub : Text)
  /-- The `UPDATE` of `AttachCard`, with the subscription it got. -/
  | attachCard (sub : Text)
  /-- A call takes its next step. -/
  | next (call : Nat)
  | passBegin
  | passList
  | passPurge
  /-- The purge is over; `ok` says whether it went. -/
  | passEnd (ok : Bool)
  /-- The server stops and starts again. -/
  | restart

def retention : Int := backupRetentionDays * 86400

namespace State

variable (s : State)

/-- A new account. -/
def created (now : Int) : State := ⟨⟨false, [], none⟩, Table.empty, 0, none, now, some now, []⟩

def addCall (call : Call) : State := { s with calls := s.calls.put s.nextCall call, nextCall := s.nextCall + 1 }

def setCall (c : Nat) (call : Call) : State := { s with calls := s.calls.put c call }

def endCall (c : Nat) : State := { s with calls := s.calls.erase c }

/-- `UPDATE accounts SET has_card = 0`, with the subscription that stays. -/
def lockCard (now : Int) (sub : Text) : State :=
  { s with
    account := { s.account with hasCard := false, subscription := sub }
    lockedSince := if s.account.hasCard then some now else s.lockedSince }

/-- `UPDATE accounts SET has_card = 1, backup_purge_after = NULL`. -/
def unlockCard (sub : Text) : State := { s with account := ⟨true, sub, none⟩, lockedSince := none }

def setPurgeAfter (purgeAfter : Option Int) : State :=
  { s with account := { s.account with backupPurgeAfter := purgeAfter } }

/-- What the caller of `scheduleBackupPurge` does next. -/
def scheduled (c : Nat) (billing : Bool) : State := if billing then s.setCall c .billingLock else s.endCall c

def next (now : Int) (c : Nat) : State :=
  match s.calls.get? c with
  | none => s
  | some (.lock sub) =>
    (if s.account.subscription = sub then s.lockCard now sub else s).setCall c (.lockFind sub)
  | some (.lockFind sub) => if s.account.subscription = sub then s.setCall c (.read false) else s.endCall c
  | some (.cancelFind sub) => if s.account.subscription = sub then s.setCall c (.cancelLock sub) else s.endCall c
  | some (.cancelLock sub) => (if s.account.subscription = sub then s.lockCard now [] else s).setCall c (.read false)
  | some (.read billing) =>
    if s.account.backupPurgeAfter.any (0 < ·) then s.scheduled c billing else s.setCall c (.compute billing)
  | some (.compute billing) => s.setCall c (.write billing (now + retention))
  | some (.write billing deadline) => (s.setPurgeAfter (some deadline)).scheduled c billing
  | some .billingLock => (s.lockCard now []).endCall c

/-- `ProcessRetention` finds the account due. -/
def isDue (now : Int) : Bool := s.account.backupPurgeAfter.any fun after => 0 < after && after ≤ now

def passList : State :=
  match s.pass with
  | some (.begun now) => { s with pass := if s.isDue now then some (.listed now) else none }
  | _ => s

/-- `PurgeStorage` takes the account's lock. -/
def passPurge (now : Int) : State :=
  match s.pass with
  | some (.listed _) =>
    { s with pass := some .purged, purges := s.purges ++ [⟨now, s.account.backupPurgeAfter, s.lockedSince⟩] }
  | _ => s

def passEnd (ok : Bool) : State :=
  match s.pass with
  | some .purged => { (if ok then s.setPurgeAfter none else s) with pass := none }
  | _ => s

def act (now : Int) : Action → State
  | .lockEvent sub => if sub = [] then s else s.addCall (.lock sub)
  | .deletedEvent sub => if sub = [] then s else s.addCall (.cancelFind sub)
  | .cancelBilling => s.addCall (.read true)
  | .unlockEvent sub => if sub ≠ [] ∧ s.account.subscription = sub then s.unlockCard sub else s
  | .attachCard sub => if s.account.subscription = [] then s.unlockCard sub else s
  | .next c => s.next now c
  | .passBegin => if s.pass = none then { s with pass := some (.begun now) } else s
  | .passList => s.passList
  | .passPurge => s.passPurge now
  | .passEnd ok => s.passEnd ok
  | .restart => { s with calls := Table.empty, pass := none }

def step (now : Int) (a : Action) : State := { s.act now a with clock := now }

def run : List (Int × Action) → State → State
  | [], s => s
  | (now, a) :: rest, s => run rest (s.step now a)

end State

/-- The deadline was set and over when the purge took the lock, and the account was locked for the whole time. -/
def Purge.Fair (p : Purge) : Prop :=
  ∃ after ∈ p.backupPurgeAfter, after ≤ p.time ∧ ∃ since ∈ p.lockedSince, since ≤ p.time - retention

instance (p : Purge) : Decidable p.Fair := by
  unfold Purge.Fair
  infer_instance

/-! ### The statements that matter -/

/-- What a step does to the account's row. -/
inductive Statement where
  | lock
  | unlock
  | deadline (billing : Bool) (deadline : Int)
  | list
  | other

namespace State

variable (s : State)

def statement : Action → Statement
  | .unlockEvent sub => if sub ≠ [] ∧ s.account.subscription = sub then .unlock else .other
  | .attachCard _ => if s.account.subscription = [] then .unlock else .other
  | .next c =>
    match s.calls.get? c with
    | some (.lock sub) => if s.account.subscription = sub then .lock else .other
    | some (.cancelLock sub) => if s.account.subscription = sub then .lock else .other
    | some .billingLock => .lock
    | some (.write billing deadline) => .deadline billing deadline
    | _ => .other
  | .passList => .list
  | _ => .other

/-- A pass has the account on its list, and began then. -/
def listedAt : Option Int :=
  match s.pass with
  | some (.listed now) => some now
  | _ => none

def begunAt : Option Int :=
  match s.pass with
  | some (.begun now) => some now
  | _ => none

/-- Nobody unlocks an account that is on the list of a pass. A deadline is only written for an account that was locked
thirty days before it and still is, or by `CancelBilling`, which then locks the account in the same second, and before
a pass finds the deadline over; and it is not written over the deadline for which the account was listed. -/
def Timely (now : Int) (a : Action) : Prop :=
  match s.statement a with
  | .lock => ∀ after ∈ s.account.backupPurgeAfter, s.account.hasCard = true → now + retention ≤ after
  | .unlock => s.listedAt = none
  | .deadline billing deadline =>
    ((∃ since ∈ s.lockedSince, since + retention ≤ deadline) ∨ billing = true ∧ s.account.hasCard = true) ∧
      ∀ listed ∈ s.listedAt, deadline ≤ listed
  | .list => ∀ begun ∈ s.begunAt, ∀ after ∈ s.account.backupPurgeAfter, s.account.hasCard = true → begun < after
  | .other => True

instance (now : Int) (a : Action) : Decidable (s.Timely now a) := by
  unfold Timely
  split <;> infer_instance

/-- The clock never goes back and every step is timely. -/
def RunTimely : List (Int × Action) → State → Prop
  | [], _ => True
  | (now, a) :: rest, s => s.clock ≤ now ∧ s.Timely now a ∧ RunTimely rest (s.step now a)

end State

/-! ### What holds throughout -/

/-- A deadline of a locked account is thirty days after it was locked, or later, and an account on a pass's list is
locked and its deadline over. -/
structure Kept (now : Int) (s : State) : Prop where
  deadline : ∀ after, s.account.backupPurgeAfter = some after → s.account.hasCard = false →
    ∃ since, s.lockedSince = some since ∧ since + retention ≤ after
  begun : ∀ n, s.pass = some (.begun n) → n ≤ now
  listed : ∀ n, s.pass = some (.listed n) →
    n ≤ now ∧ s.account.hasCard = false ∧ ∃ after, s.account.backupPurgeAfter = some after ∧ after ≤ n
  purges : ∀ p ∈ s.purges, p.Fair

namespace Kept

variable {s s' : State} {now : Int}

theorem created (now : Int) : Kept now (State.created now) where
  deadline := nofun
  begun := nofun
  listed := nofun
  purges := nofun

section

variable (hk : Kept now s)
include hk

theorem later {now' : Int} (hle : now ≤ now') : Kept now' s where
  deadline := hk.deadline
  begun := fun n h => Int.le_trans (hk.begun n h) hle
  listed := by
    intro n h
    obtain ⟨hn, hrest⟩ := hk.listed n h
    exact ⟨Int.le_trans hn hle, hrest⟩
  purges := hk.purges

/-- Where a call stands does not matter. -/
theorem of_same (haccount : s'.account = s.account) (hpass : s'.pass = s.pass)
    (hsince : s'.lockedSince = s.lockedSince) (hpurges : s'.purges = s.purges) : Kept now s' := by
  constructor
  · rw [haccount, hsince]
    exact hk.deadline
  · rw [hpass]
    exact hk.begun
  · rw [hpass, haccount]
    exact hk.listed
  · rw [hpurges]
    exact hk.purges

theorem addCall (call : Call) : Kept now (s.addCall call) := hk.of_same rfl rfl rfl rfl

theorem setCall (c : Nat) (call : Call) : Kept now (s.setCall c call) := hk.of_same rfl rfl rfl rfl

theorem endCall (c : Nat) : Kept now (s.endCall c) := hk.of_same rfl rfl rfl rfl

theorem scheduled (c : Nat) (billing : Bool) : Kept now (s.scheduled c billing) := by
  unfold State.scheduled
  split
  · exact hk.setCall c _
  · exact hk.endCall c

theorem lockCard (sub : Text)
    (htimely : ∀ after ∈ s.account.backupPurgeAfter, s.account.hasCard = true → now + retention ≤ after) :
    Kept now (s.lockCard now sub) := by
  constructor
  · intro after hafter _
    by_cases hcard : s.account.hasCard = true
    · have hsince : (s.lockCard now sub).lockedSince = some now := if_pos hcard
      exact ⟨now, hsince, htimely after hafter hcard⟩
    · have hsince : (s.lockCard now sub).lockedSince = s.lockedSince := if_neg hcard
      rw [hsince]
      exact hk.deadline after hafter (Bool.eq_false_iff.mpr hcard)
  · exact hk.begun
  · intro n hn
    obtain ⟨hle, -, hafter⟩ := hk.listed n hn
    exact ⟨hle, rfl, hafter⟩
  · exact hk.purges

theorem unlockCard (sub : Text) (hlisted : s.listedAt = none) : Kept now (s.unlockCard sub) := by
  constructor
  · intro after hafter
    cases hafter
  · exact hk.begun
  · intro n hn
    have hn' : s.pass = some (.listed n) := hn
    unfold State.listedAt at hlisted
    rw [hn'] at hlisted
    cases hlisted
  · exact hk.purges

theorem write {billing : Bool} {deadline : Int}
    (hlocked : (∃ since ∈ s.lockedSince, since + retention ≤ deadline) ∨ billing = true ∧ s.account.hasCard = true)
    (hlisted : ∀ listed ∈ s.listedAt, deadline ≤ listed) : Kept now (s.setPurgeAfter (some deadline)) := by
  constructor
  · intro after hafter hcard
    have heq : deadline = after := Option.some.inj hafter
    have hcard' : s.account.hasCard = false := hcard
    rcases hlocked with ⟨since, hsince, hle⟩ | ⟨-, hopen⟩
    · exact ⟨since, hsince, heq ▸ hle⟩
    · rw [hopen] at hcard'
      cases hcard'
  · exact hk.begun
  · intro n hn
    have hn' : s.pass = some (.listed n) := hn
    obtain ⟨hle, hcard, -⟩ := hk.listed n hn'
    have hat : s.listedAt = some n := by
      unfold State.listedAt
      rw [hn']
    exact ⟨hle, hcard, deadline, rfl, hlisted n hat⟩
  · exact hk.purges

theorem next {c : Nat} (htimely : s.Timely now (.next c)) : Kept now (s.next now c) := by
  unfold State.next
  unfold State.Timely State.statement at htimely
  cases hc : s.calls.get? c with
  | none => exact hk
  | some call =>
    simp only [hc] at htimely
    cases call with
    | lock sub =>
      by_cases hsub : s.account.subscription = sub
      · simp only [hsub] at htimely ⊢
        exact (hk.lockCard sub htimely).setCall c _
      · simp only [hsub]
        exact hk.setCall c _
    | lockFind sub | cancelFind sub =>
      dsimp only
      split
      · exact hk.setCall c _
      · exact hk.endCall c
    | cancelLock sub =>
      by_cases hsub : s.account.subscription = sub
      · simp only [hsub] at htimely ⊢
        exact (hk.lockCard [] htimely).setCall c _
      · simp only [hsub]
        exact hk.setCall c _
    | read billing =>
      dsimp only
      split
      · exact hk.scheduled c billing
      · exact hk.setCall c _
    | compute billing => exact hk.setCall c _
    | write billing deadline => exact (hk.write htimely.1 htimely.2).scheduled c billing
    | billingLock => exact (hk.lockCard [] htimely).endCall c

theorem passList (htimely : s.Timely now .passList) : Kept now s.passList := by
  unfold State.passList
  split
  · rename_i begun hbegun
    have hat : s.begunAt = some begun := by
      unfold State.begunAt
      rw [hbegun]
    constructor
    · exact hk.deadline
    · intro n hn
      split at hn <;> cases hn
    · intro n hn
      split at hn
      · rename_i hdue
        cases hn
        cases hafter : s.account.backupPurgeAfter with
        | none =>
          unfold State.isDue at hdue
          rw [hafter] at hdue
          cases hdue
        | some after =>
          have hle : after ≤ begun := by
            unfold State.isDue at hdue
            rw [hafter] at hdue
            simp only [Option.any_some, Bool.and_eq_true, decide_eq_true_eq] at hdue
            exact hdue.2
          have hcard : s.account.hasCard = false := by
            cases hopen : s.account.hasCard with
            | false => rfl
            | true =>
              have hlt := htimely begun hat after hafter hopen
              omega
          exact ⟨hk.begun begun hbegun, hcard, after, rfl, hle⟩
      · cases hn
    · exact hk.purges
  · exact hk

theorem passPurge : Kept now (s.passPurge now) := by
  unfold State.passPurge
  split
  · rename_i n hn
    obtain ⟨hle, hcard, after, hafter, hdue⟩ := hk.listed n hn
    obtain ⟨since, hsince, hlong⟩ := hk.deadline after hafter hcard
    constructor
    · exact hk.deadline
    · exact nofun
    · exact nofun
    · intro p hp
      rcases List.mem_append.mp hp with hold | hnew
      · exact hk.purges p hold
      · rw [List.mem_singleton] at hnew
        subst hnew
        have hover : after ≤ now := by omega
        have hlocked : since ≤ now - retention := by omega
        exact ⟨after, hafter, hover, since, hsince, hlocked⟩
  · exact hk

theorem passEnd (ok : Bool) : Kept now (s.passEnd ok) := by
  unfold State.passEnd
  split
  · constructor
    · intro after hafter hcard
      cases ok with
      | true => cases hafter
      | false => exact hk.deadline after hafter hcard
    · exact nofun
    · exact nofun
    · cases ok <;> exact hk.purges
  · exact hk

theorem act {a : Action} (htimely : s.Timely now a) : Kept now (s.act now a) := by
  cases a with
  | lockEvent sub | deletedEvent sub =>
    simp only [State.act]
    split
    · exact hk
    · exact hk.addCall _
  | cancelBilling => exact hk.addCall _
  | unlockEvent sub =>
    simp only [State.act]
    by_cases hsub : sub ≠ [] ∧ s.account.subscription = sub
    · have hstatement : s.statement (.unlockEvent sub) = .unlock := if_pos hsub
      unfold State.Timely at htimely
      rw [hstatement] at htimely
      rw [if_pos hsub]
      exact hk.unlockCard sub htimely
    · rw [if_neg hsub]
      exact hk
  | attachCard sub =>
    simp only [State.act]
    by_cases hsub : s.account.subscription = []
    · have hstatement : s.statement (.attachCard sub) = .unlock := if_pos hsub
      unfold State.Timely at htimely
      rw [hstatement] at htimely
      rw [if_pos hsub]
      exact hk.unlockCard sub htimely
    · rw [if_neg hsub]
      exact hk
  | next c => exact hk.next htimely
  | passBegin =>
    simp only [State.act]
    split
    · constructor
      · exact hk.deadline
      · intro n hn
        cases hn
        exact Int.le_refl now
      · exact nofun
      · exact hk.purges
    · exact hk
  | passList => exact hk.passList htimely
  | passPurge => exact hk.passPurge
  | passEnd ok => exact hk.passEnd ok
  | restart =>
    constructor
    · exact hk.deadline
    · exact nofun
    · exact nofun
    · exact hk.purges

end

theorem step (hk : Kept s.clock s) {a : Action} (hclock : s.clock ≤ now) (htimely : s.Timely now a) :
    Kept (s.step now a).clock (s.step now a) :=
  ((hk.later hclock).act htimely).of_same rfl rfl rfl rfl

theorem run {as : List (Int × Action)} (hk : Kept s.clock s) (htimely : State.RunTimely as s) :
    Kept (State.run as s).clock (State.run as s) := by
  induction as generalizing s with
  | nil => exact hk
  | cons head rest ih =>
    obtain ⟨now, a⟩ := head
    obtain ⟨hclock, ha, hrest⟩ := htimely
    exact ih (hk.step hclock ha) hrest

end Kept

/-- In a run whose steps are timely, `ProcessRetention` purges the account only when its deadline is set and over, and
the account was locked for the thirty days before. -/
theorem purges_are_fair (start : Int) (as : List (Int × Action)) (htimely : State.RunTimely as (State.created start)) :
    ∀ p ∈ (State.run as (State.created start)).purges, p.Fair :=
  ((Kept.created start).run htimely).purges

/-- A subscription, a failed payment, and thirty days later a pass. -/
def paysNoMore (atTheEnd : List (Int × Action)) : List (Int × Action) :=
  [(0, .attachCard "sub_1".toList), (100, .lockEvent "sub_1".toList), (100, .next 0), (100, .next 0), (100, .next 0),
    (100, .next 0), (100, .next 0), (100 + retention, .passBegin), (100 + retention, .passList)] ++ atTheEnd

theorem purges_are_fair_paysNoMore :
    (State.run (paysNoMore [(101 + retention, .passPurge)]) (State.created 0)).purges =
        [⟨101 + retention, some (100 + retention), some 100⟩] ∧
      ∀ p ∈ (State.run (paysNoMore [(101 + retention, .passPurge)]) (State.created 0)).purges, p.Fair := by
  refine ⟨by decide +kernel, purges_are_fair 0 _ ?_⟩
  simp only [State.RunTimely, paysNoMore, List.cons_append, List.nil_append]
  decide +kernel

/-- The customer pays between the failed payment's first statement and its deadline. -/
def paysInBetween : List (Int × Action) :=
  [(0, .attachCard "sub_1".toList), (100, .lockEvent "sub_1".toList), (100, .next 0), (100, .unlockEvent "sub_1".toList),
    (100, .next 0), (100, .next 0), (100, .next 0), (100, .next 0), (100 + retention, .passBegin),
    (100 + retention, .passList), (100 + retention, .passPurge)]

/-- The customer pays while the pass has the account on its list. -/
def paysWhileListed : List (Int × Action) :=
  paysNoMore [(101 + retention, .unlockEvent "sub_1".toList), (102 + retention, .passPurge)]

theorem paying_account_purged :
    (State.run paysWhileListed (State.created 0)).purges = [⟨102 + retention, none, none⟩] ∧
      (State.run paysInBetween (State.created 0)).purges = [⟨100 + retention, some (100 + retention), none⟩] ∧
      ¬ ∀ (start : Int) (as : List (Int × Action)), (as.map Prod.fst).Pairwise (· ≤ ·) →
        (∀ t ∈ as.map Prod.fst, start ≤ t) → ∀ p ∈ (State.run as (State.created start)).purges, p.Fair := by
  have hlisted : (State.run paysWhileListed (State.created 0)).purges = [⟨102 + retention, none, none⟩] := by
    decide +kernel
  refine ⟨hlisted, by decide +kernel, fun hall => ?_⟩
  have hfair := hall 0 paysWhileListed (by decide +kernel) (by decide +kernel) ⟨102 + retention, none, none⟩
    (by rw [hlisted]; exact List.mem_singleton.mpr rfl)
  obtain ⟨after, hafter, -⟩ := hfair
  cases hafter

end LibreServ.Retention
