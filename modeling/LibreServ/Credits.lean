import LibreServ.Paths
import LibreServ.Tally

/-! The credit ledger of one account at Connect, from `billing/credits.go` and the `invoice.paid` event of
`handlers/billing.go`. A call reads the balance and later makes its movement in a transaction; between the two other
calls take their steps. -/

namespace LibreServ.Billing

open List Table
open Files (Text trim)

variable {call : Call}

inductive Direction where
  | credit
  | debit
  deriving DecidableEq

/-- A row of `credit_transactions`. -/
structure CreditEntry where
  amountCents : Int
  direction : Direction
  reason : Text
  referenceID : Option Text
  adminID : Option Text
  createdAt : Int
  deriving DecidableEq

/-- The row of `account_credits`. -/
structure AccountCredits where
  balanceCents : Int
  updatedAt : Int
  deriving DecidableEq

inductive CreditError where
  | reasonRequired
  | amountInvalid
  | noSuchAccount
  | noBalance
  | insufficient (have_ need : Int)
  deriving DecidableEq

/-- What `applyMovement` is called with. -/
structure Movement where
  amountCents : Int
  direction : Direction
  reason : Text
  referenceID : Text
  adminID : Text
  deriving DecidableEq

/-- The checks of `AddCredit`; `found` says whether the account exists. -/
def addCredit (found : Bool) (amountCents : Int) (reason referenceID adminID : Text) : Except CreditError Movement :=
  if amountCents ≤ 0 then .error .amountInvalid
  else if trim reason = [] then .error .reasonRequired
  else if ¬ found then .error .noSuchAccount
  else .ok ⟨amountCents, .credit, reason, referenceID, adminID⟩

/-- The checks of `DeductCredit`, with the row it reads. -/
def deductCredit (row : Option AccountCredits) (amountCents : Int) (reason referenceID : Text) :
    Except CreditError Movement :=
  if amountCents ≤ 0 then .error .amountInvalid
  else if reason = [] then .error .reasonRequired
  else
    match row with
    | none => .error .noBalance
    | some credits =>
      if credits.balanceCents < amountCents then .error (.insufficient credits.balanceCents amountCents)
      else .ok ⟨amountCents, .debit, reason, referenceID, []⟩

/-- What `ApplyCreditsToInvoice` asks `DeductCredit` for, from the row it reads. -/
def applied (row : Option AccountCredits) (invoiceCents : Int) : Option Int :=
  match row with
  | none => none
  | some credits =>
    let applied := if credits.balanceCents > invoiceCents then invoiceCents else credits.balanceCents
    if applied ≤ 0 then none else some applied

def textOrNull (t : Text) : Option Text := if t = [] then none else some t

namespace Movement

variable (m : Movement)

def delta : Int := match m.direction with
  | .credit => m.amountCents
  | .debit => -m.amountCents

def entry (now : Int) : CreditEntry :=
  ⟨m.amountCents, m.direction, m.reason, textOrNull m.referenceID, textOrNull m.adminID, now⟩

end Movement

/-- Where a call stands. -/
inductive Call where
  /-- `ApplyCreditsToInvoice` before it reads the balance. -/
  | apply (invoiceID : Text) (invoiceCents : Int)
  /-- `DeductCredit` before it reads the balance. -/
  | deduct (amountCents : Int) (reason referenceID : Text)
  /-- Before the transaction of `applyMovement`. -/
  | move (m : Movement)
  deriving DecidableEq

structure Ledger where
  row : Option AccountCredits
  entries : List CreditEntry
  calls : Table Nat Call
  nextCall : Nat

inductive Action where
  | addCredit (found : Bool) (amountCents : Int) (reason referenceID adminID : Text)
  /-- An `invoice.paid` event, the first or once more. -/
  | invoicePaid (invoiceID : Text)
  /-- A call takes its next step. -/
  | next (call : Nat) (now : Int)
  /-- A statement of a call fails. -/
  | fail (call : Nat)

namespace Ledger

variable (l : Ledger)

def empty : Ledger := ⟨none, [], Table.empty, 0⟩

def addCall (call : Call) : Ledger := { l with calls := l.calls.put l.nextCall call, nextCall := l.nextCall + 1 }

def setCall (c : Nat) (call : Call) : Ledger := { l with calls := l.calls.put c call }

def endCall (c : Nat) : Ledger := { l with calls := l.calls.erase c }

/-- `applyMovement`: the balance and its entry in one transaction. -/
def applyMovement (now : Int) (m : Movement) : Ledger :=
  { l with
    row := some ⟨((l.row.map AccountCredits.balanceCents).getD 0) + m.delta, now⟩
    entries := l.entries ++ [m.entry now] }

/-- `applyCreditsFromInvoice`, up to the call it makes. -/
def invoicePaid (invoiceID : Text) (amountPaid : Int) : Ledger :=
  if invoiceID = [] ∨ amountPaid ≤ 0 then l else l.addCall (.apply invoiceID amountPaid)

def next (c : Nat) (now : Int) : Ledger :=
  match l.calls.get? c with
  | none => l
  | some (.apply invoiceID invoiceCents) =>
    match applied l.row invoiceCents with
    | none => l.endCall c
    | some cents => l.setCall c (.deduct cents "invoice_credit".toList invoiceID)
  | some (.deduct amountCents reason referenceID) =>
    match deductCredit l.row amountCents reason referenceID with
    | .error _ => l.endCall c
    | .ok m => l.setCall c (.move m)
  | some (.move m) => (l.applyMovement now m).endCall c

/-- `amountPaid` is what each invoice says was paid. -/
def step (amountPaid : Text → Int) : Action → Ledger
  | .addCredit found amountCents reason referenceID adminID =>
    match Billing.addCredit found amountCents reason referenceID adminID with
    | .error _ => l
    | .ok m => l.addCall (.move m)
  | .invoicePaid invoiceID => l.invoicePaid invoiceID (amountPaid invoiceID)
  | .next c now => l.next c now
  | .fail c => l.endCall c

def run (amountPaid : Text → Int) : List Action → Ledger → Ledger
  | [], l => l
  | a :: rest, l => run amountPaid rest (l.step amountPaid a)

/-! ### What the ledger says -/

def balance : Int := (l.row.map AccountCredits.balanceCents).getD 0

def credits : Int := ((l.entries.filter fun e => e.direction = .credit).map CreditEntry.amountCents).sum

def debits : Int := ((l.entries.filter fun e => e.direction = .debit).map CreditEntry.amountCents).sum

def debitsFor (invoiceID : Text) : Int :=
  ((l.entries.filter fun e => e.direction = .debit ∧ e.referenceID = some invoiceID).map CreditEntry.amountCents).sum

/-- The balance is what the entries say, never below zero, and no invoice got more than was paid on it. -/
structure Exact (amountPaid : Text → Int) : Prop where
  sum : l.balance = l.credits - l.debits
  nonneg : 0 ≤ l.balance
  invoices : ∀ invoiceID, 0 < l.debitsFor invoiceID → l.debitsFor invoiceID ≤ amountPaid invoiceID

end Ledger

/-! ### Deductions that were checked and are not made yet -/

def Movement.taken (m : Movement) : Int := if m.direction = .debit then m.amountCents else 0

def Movement.takenFor (m : Movement) (invoiceID : Text) : Int :=
  if m.direction = .debit ∧ textOrNull m.referenceID = some invoiceID then m.amountCents else 0

def Call.held : Call → Int
  | .move m => m.taken
  | _ => 0

def Call.heldFor (invoiceID : Text) : Call → Int
  | .move m => m.takenFor invoiceID
  | _ => 0

namespace Ledger

variable (l : Ledger)

def held : Int := l.calls.tally fun _ call => call.held

def heldFor (invoiceID : Text) : Int := l.calls.tally fun _ call => call.heldFor invoiceID

/-- What `DeductCredit` is about to check, and for which invoice. -/
def deduction : Action → Option (Int × Text)
  | .next c _ =>
    match l.calls.get? c with
    | some (.deduct amountCents _ invoiceID) => some (amountCents, invoiceID)
    | _ => none
  | _ => none

/-- When `DeductCredit` finds the balance enough, it also is enough for the deductions that were checked before, and
the invoice has room for it. -/
def Covered (amountPaid : Text → Int) (a : Action) : Prop :=
  ∀ d ∈ l.deduction a, d.1 ≤ l.balance →
    l.held + d.1 ≤ l.balance ∧ l.debitsFor d.2 + l.heldFor d.2 + d.1 ≤ amountPaid d.2

instance (amountPaid : Text → Int) (a : Action) : Decidable (l.Covered amountPaid a) := by
  unfold Covered
  infer_instance

/-- Every step of the run is covered. -/
def RunCovered (amountPaid : Text → Int) : List Action → Ledger → Prop
  | [], _ => True
  | a :: rest, l => l.Covered amountPaid a ∧ RunCovered amountPaid rest (l.step amountPaid a)

end Ledger

/-! ### What each step does -/

section

variable {l : Ledger} {amountPaid : Text → Int} {c : Nat} {now : Int} {m : Movement} {invoiceID : Text}

theorem addCredit_positive {found : Bool} {amountCents : Int} {reason referenceID adminID : Text}
    (h : addCredit found amountCents reason referenceID adminID = .ok m) : 0 < m.amountCents ∧ m.direction = .credit := by
  unfold addCredit at h
  split at h
  · cases h
  rename_i hpos
  split at h
  · cases h
  split at h
  · cases h
  cases h
  exact ⟨not_le.mp hpos, rfl⟩

theorem deductCredit_ok {row : Option AccountCredits} {amountCents : Int} {reason referenceID : Text}
    (h : deductCredit row amountCents reason referenceID = .ok m) :
    0 < amountCents ∧ amountCents ≤ (row.map AccountCredits.balanceCents).getD 0 ∧
      m = ⟨amountCents, .debit, reason, referenceID, []⟩ := by
  unfold deductCredit at h
  split at h
  · cases h
  rename_i hpos
  split at h
  · cases h
  cases row with
  | none => cases h
  | some credits =>
    dsimp only at h
    split at h
    · cases h
    · rename_i henough
      cases h
      refine ⟨by omega, ?_, rfl⟩
      show amountCents ≤ credits.balanceCents
      omega

section

variable (h : ∀ m, call = .move m → 0 < m.amountCents)

include h

theorem Call.held_nonneg : 0 ≤ call.held := by
  cases call with
  | move m =>
    have hpos := h m rfl
    show 0 ≤ m.taken
    unfold Movement.taken
    split <;> omega
  | apply _ _ | deduct _ _ _ => exact le_rfl

theorem Call.heldFor_nonneg (invoiceID : Text) :
    0 ≤ call.heldFor invoiceID := by
  cases call with
  | move m =>
    have hpos := h m rfl
    show 0 ≤ m.takenFor invoiceID
    unfold Movement.takenFor
    split <;> omega
  | apply _ _ | deduct _ _ _ => exact le_rfl

end

namespace Ledger

theorem balance_applyMovement : (l.applyMovement now m).balance = l.balance + m.delta := rfl

theorem sum_applyMovement :
    (l.applyMovement now m).credits - (l.applyMovement now m).debits = l.credits - l.debits + m.delta := by
  have hentries : (l.applyMovement now m).entries = l.entries ++ [m.entry now] := rfl
  unfold credits debits
  rw [hentries, filter_append, map_append, sum_append, filter_append, map_append, sum_append]
  cases hd : m.direction <;> simp [Movement.delta, Movement.entry, hd] <;> omega

theorem debitsFor_applyMovement :
    (l.applyMovement now m).debitsFor invoiceID = l.debitsFor invoiceID + m.takenFor invoiceID := by
  have hentries : (l.applyMovement now m).entries = l.entries ++ [m.entry now] := rfl
  unfold debitsFor
  rw [hentries, filter_append, map_append]
  by_cases h : m.direction = .debit ∧ textOrNull m.referenceID = some invoiceID
  · simp [Movement.takenFor, Movement.entry, h]
  · simp [Movement.takenFor, Movement.entry, h]

theorem held_endCall (h : l.calls.get? c = some call) : (l.endCall c).held + call.held = l.held :=
  tally_erase h _

theorem heldFor_endCall (h : l.calls.get? c = some call) :
    (l.endCall c).heldFor invoiceID + call.heldFor invoiceID = l.heldFor invoiceID :=
  tally_erase h _

theorem held_setCall (call : Call) : (l.setCall c call).held = (l.endCall c).held + call.held := tally_put _ _ _ _

theorem heldFor_setCall (call : Call) :
    (l.setCall c call).heldFor invoiceID = (l.endCall c).heldFor invoiceID + call.heldFor invoiceID :=
  tally_put _ _ _ _

/-! ### What holds throughout -/

/-- The balance is enough for every deduction that was checked, and so is what was paid on each invoice. -/
structure Sound (amountPaid : Text → Int) (l : Ledger) : Prop where
  room : l.held ≤ l.balance
  invoices : ∀ invoiceID, 0 < l.debitsFor invoiceID + l.heldFor invoiceID →
    l.debitsFor invoiceID + l.heldFor invoiceID ≤ amountPaid invoiceID
  positive : ∀ c m, l.calls.get? c = some (.move m) → 0 < m.amountCents
  fresh : ∀ c, l.nextCall ≤ c → l.calls.get? c = none

namespace Sound

theorem empty (amountPaid : Text → Int) : Sound amountPaid Ledger.empty where
  room := le_rfl
  invoices := fun _ h => absurd h (lt_irrefl 0)
  positive := nofun
  fresh := fun _ _ => rfl

section

variable (hs : Sound amountPaid l)
include hs

theorem held_nonneg : 0 ≤ l.held := by
  apply tally_nonneg
  intro c call hc
  apply Call.held_nonneg
  intro m hm
  exact hs.positive c m (hm ▸ hc)

theorem heldFor_nonneg (invoiceID : Text) : 0 ≤ l.heldFor invoiceID := by
  apply tally_nonneg
  intro c call hc
  apply Call.heldFor_nonneg
  intro m hm
  exact hs.positive c m (hm ▸ hc)

theorem exact (hsum : l.balance = l.credits - l.debits) : l.Exact amountPaid where
  sum := hsum
  nonneg := by
    have hheld := hs.held_nonneg
    have hroom := hs.room
    omega
  invoices := by
    intro invoiceID hpos
    have hheld := hs.heldFor_nonneg invoiceID
    have hinv := hs.invoices invoiceID (by omega)
    omega

/-- A call changes what it holds, within what there is room for. -/
theorem of_calls (l' : Ledger) (hrow : l'.row = l.row) (hentries : l'.entries = l.entries) (hroom : l'.held ≤ l.balance)
    (hinvoices : ∀ invoiceID, l'.heldFor invoiceID ≤ l.heldFor invoiceID ∨
      l.debitsFor invoiceID + l'.heldFor invoiceID ≤ amountPaid invoiceID)
    (hpositive : ∀ c m, l'.calls.get? c = some (.move m) → 0 < m.amountCents)
    (hfresh : ∀ c, l'.nextCall ≤ c → l'.calls.get? c = none) : Sound amountPaid l' := by
  have hbalance : l'.balance = l.balance := by
    unfold balance
    rw [hrow]
  have hdebits : ∀ invoiceID, l'.debitsFor invoiceID = l.debitsFor invoiceID := by
    intro invoiceID
    unfold debitsFor
    rw [hentries]
  refine ⟨hbalance ▸ hroom, ?_, hpositive, hfresh⟩
  intro invoiceID hpos
  rw [hdebits] at hpos ⊢
  rcases hinvoices invoiceID with hless | hle
  · have hinv := hs.invoices invoiceID (by omega)
    omega
  · exact hle

theorem addCall (hheld : call.held = 0)
    (hheldFor : ∀ invoiceID, call.heldFor invoiceID = 0) (hpos : ∀ m, call = .move m → 0 < m.amountCents) :
    Sound amountPaid (l.addCall call) := by
  have hnone : l.calls.get? l.nextCall = none := hs.fresh _ le_rfl
  refine hs.of_calls (l.addCall call) rfl rfl ?_ ?_ ?_ ?_
  · have hput : (l.addCall call).held = l.held + call.held := tally_put_of_none hnone _ _
    rw [hput, hheld, add_zero]
    exact hs.room
  · intro invoiceID
    left
    have hput : (l.addCall call).heldFor invoiceID = l.heldFor invoiceID + call.heldFor invoiceID :=
      tally_put_of_none hnone _ _
    rw [hput, hheldFor, add_zero]
  · intro c m hc
    have hc' : (l.calls.put l.nextCall call).get? c = some (.move m) := hc
    rw [get?_put] at hc'
    split at hc'
    · exact hpos m (Option.some.inj hc')
    · exact hs.positive c m hc'
  · intro c hle
    have hle' : l.nextCall + 1 ≤ c := hle
    show (l.calls.put l.nextCall call).get? c = none
    rw [get?_put_of_ne _ _ (by omega)]
    exact hs.fresh c (by omega)

end

theorem get?_endCall (l : Ledger) (c c' : Nat) :
    (l.endCall c).calls.get? c' = if c' = c then none else l.calls.get? c' := get?_erase _ _ _

section

variable (hs : Sound amountPaid l)
include hs

theorem endCall_held (c : Nat) :
    (l.endCall c).held ≤ l.held ∧ ∀ invoiceID, (l.endCall c).heldFor invoiceID ≤ l.heldFor invoiceID := by
  cases hc : l.calls.get? c with
  | none =>
    have hheld : (l.endCall c).held = l.held := tally_erase_of_none hc _
    refine ⟨hheld.le, fun invoiceID => ?_⟩
    have hheldFor : (l.endCall c).heldFor invoiceID = l.heldFor invoiceID := tally_erase_of_none hc _
    exact hheldFor.le
  | some call =>
    have hpos : ∀ m, call = .move m → 0 < m.amountCents := fun m hm => hs.positive c m (hm ▸ hc)
    refine ⟨?_, fun invoiceID => ?_⟩
    · have hsum := held_endCall hc
      have hcall := Call.held_nonneg hpos
      omega
    · have hsum : (l.endCall c).heldFor invoiceID + call.heldFor invoiceID = l.heldFor invoiceID := heldFor_endCall hc
      have hcall := Call.heldFor_nonneg hpos invoiceID
      omega

theorem endCall (c : Nat) : Sound amountPaid (l.endCall c) := by
  obtain ⟨hheld, hheldFor⟩ := hs.endCall_held c
  have hroom : (l.endCall c).held ≤ l.balance := hheld.trans hs.room
  refine hs.of_calls (l.endCall c) rfl rfl hroom (fun invoiceID => .inl (hheldFor invoiceID)) ?_ ?_
  · intro c' m hc'
    rw [get?_endCall] at hc'
    split at hc'
    · cases hc'
    · exact hs.positive c' m hc'
  · intro c' hle
    rw [get?_endCall, hs.fresh c' hle, ite_self]

/-- A call goes on, within what there is room for. -/
theorem setCall {old : Call} (hc : l.calls.get? c = some old)
    (hpos : ∀ m, call = .move m → 0 < m.amountCents) (hroom : l.held + call.held ≤ l.balance)
    (hinvoices : ∀ invoiceID, call.heldFor invoiceID = 0 ∨
      l.debitsFor invoiceID + l.heldFor invoiceID + call.heldFor invoiceID ≤ amountPaid invoiceID) :
    Sound amountPaid (l.setCall c call) := by
  obtain ⟨hheld, hheldFor⟩ := hs.endCall_held c
  have hget : ∀ c', (l.setCall c call).calls.get? c' = if c' = c then some call else l.calls.get? c' :=
    get?_put _ _ _
  refine hs.of_calls (l.setCall c call) rfl rfl ?_ ?_ ?_ ?_
  · rw [held_setCall]
    omega
  · intro invoiceID
    have hle := hheldFor invoiceID
    rw [heldFor_setCall]
    rcases hinvoices invoiceID with hzero | hinv
    · left
      omega
    · right
      omega
  · intro c' m hc'
    rw [hget] at hc'
    split at hc'
    · exact hpos m (Option.some.inj hc')
    · exact hs.positive c' m hc'
  · intro c' hle
    have hle' : l.nextCall ≤ c' := hle
    have hne : c' ≠ c := by
      intro heq
      rw [← heq, hs.fresh c' hle'] at hc
      cases hc
    rw [hget, if_neg hne]
    exact hs.fresh c' hle'

/-- A movement turns what was held into an entry. -/
theorem move (hc : l.calls.get? c = some (.move m)) : Sound amountPaid ((l.applyMovement now m).endCall c) := by
  have hpos := hs.positive c m hc
  have hbalance : ((l.applyMovement now m).endCall c).balance = l.balance + m.delta := balance_applyMovement
  have hheld : ((l.applyMovement now m).endCall c).held + m.taken = l.held := held_endCall hc
  have hdelta : -m.taken ≤ m.delta := by
    unfold Movement.taken Movement.delta
    cases m.direction
    · simp only [reduceCtorEq]
      omega
    · simp
  refine ⟨?_, ?_, (hs.endCall c).positive, (hs.endCall c).fresh⟩
  · have hroom := hs.room
    omega
  · intro invoiceID hpos'
    have hdebits : ((l.applyMovement now m).endCall c).debitsFor invoiceID = l.debitsFor invoiceID + m.takenFor invoiceID :=
      debitsFor_applyMovement
    have hheldFor : ((l.applyMovement now m).endCall c).heldFor invoiceID + m.takenFor invoiceID = l.heldFor invoiceID :=
      heldFor_endCall hc
    have hinv := hs.invoices invoiceID (by omega)
    omega

theorem next (hcovered : l.Covered amountPaid (.next c now)) : Sound amountPaid (l.next c now) := by
  unfold Ledger.next
  cases hc : l.calls.get? c with
  | none => exact hs
  | some call =>
    cases call with
    | apply invoiceID invoiceCents =>
      dsimp only
      cases applied l.row invoiceCents with
      | none => exact hs.endCall c
      | some cents =>
        apply hs.setCall hc
        · intro m hm
          cases hm
        · show l.held + 0 ≤ l.balance
          rw [add_zero]
          exact hs.room
        · exact fun _ => .inl rfl
    | deduct amountCents reason invoiceID =>
      dsimp only
      cases hd : deductCredit l.row amountCents reason invoiceID with
      | error _ => exact hs.endCall c
      | ok m =>
        obtain ⟨hpos, henough, rfl⟩ := deductCredit_ok hd
        have hasks : l.deduction (.next c now) = some (amountCents, invoiceID) := by simp [deduction, hc]
        obtain ⟨hroom, hinv⟩ := hcovered _ hasks henough
        apply hs.setCall hc
        · intro m hm
          cases hm
          exact hpos
        · exact hroom
        · intro invoiceID'
          by_cases href : textOrNull invoiceID = some invoiceID'
          · have heq : invoiceID' = invoiceID := by
              unfold textOrNull at href
              split at href
              · cases href
              · exact (Option.some.inj href).symm
            subst heq
            right
            simpa [Call.heldFor, Movement.takenFor, href] using hinv
          · left
            simp [Call.heldFor, Movement.takenFor, href]
    | move m => exact hs.move hc

theorem step {a : Action} (hcovered : l.Covered amountPaid a) : Sound amountPaid (l.step amountPaid a) := by
  cases a with
  | addCredit found amountCents reason referenceID adminID =>
    unfold Ledger.step
    dsimp only
    cases hadd : addCredit found amountCents reason referenceID adminID with
    | error _ => exact hs
    | ok m =>
      obtain ⟨hpos, hdir⟩ := addCredit_positive hadd
      apply hs.addCall
      · show m.taken = 0
        simp [Movement.taken, hdir]
      · intro invoiceID
        show m.takenFor invoiceID = 0
        simp [Movement.takenFor, hdir]
      · intro m' hm
        cases hm
        exact hpos
  | invoicePaid invoiceID =>
    show Sound amountPaid (l.invoicePaid invoiceID (amountPaid invoiceID))
    unfold Ledger.invoicePaid
    split
    · exact hs
    · exact hs.addCall rfl (fun _ => rfl) fun m hm => nomatch hm
  | next c now => exact hs.next hcovered
  | fail c => exact hs.endCall c

end

theorem run {as : List Action} (hs : Sound amountPaid l) (hcovered : RunCovered amountPaid as l) :
    Sound amountPaid (run amountPaid as l) := by
  induction as generalizing l with
  | nil => exact hs
  | cons a rest ih =>
    obtain ⟨ha, hrest⟩ := hcovered
    exact ih (hs.step ha) hrest

end Sound

/-- A step leaves the row and the entries as they are, or makes one movement. -/
theorem step_cases (l : Ledger) (amountPaid : Text → Int) (a : Action) :
    ((l.step amountPaid a).row = l.row ∧ (l.step amountPaid a).entries = l.entries) ∨
      ∃ c now m, l.step amountPaid a = (l.applyMovement now m).endCall c := by
  cases a with
  | addCredit found amountCents reason referenceID adminID =>
    left
    unfold Ledger.step
    dsimp only
    cases addCredit found amountCents reason referenceID adminID <;> exact ⟨rfl, rfl⟩
  | invoicePaid invoiceID =>
    left
    show (l.invoicePaid invoiceID (amountPaid invoiceID)).row = _ ∧ (l.invoicePaid _ _).entries = _
    unfold Ledger.invoicePaid
    split <;> exact ⟨rfl, rfl⟩
  | next c now =>
    show ((l.next c now).row = _ ∧ (l.next c now).entries = _) ∨ ∃ c' now' m, l.next c now = _
    unfold Ledger.next
    cases l.calls.get? c with
    | none => exact .inl ⟨rfl, rfl⟩
    | some call =>
      cases call with
      | apply invoiceID invoiceCents =>
        left
        dsimp only
        cases applied l.row invoiceCents <;> exact ⟨rfl, rfl⟩
      | deduct amountCents reason invoiceID =>
        left
        dsimp only
        cases deductCredit l.row amountCents reason invoiceID <;> exact ⟨rfl, rfl⟩
      | move m => exact .inr ⟨c, now, m, rfl⟩
  | fail c => exact .inl ⟨rfl, rfl⟩

/-- The balance is the sum of the entries in every run, covered or not. -/
theorem balance_run (amountPaid : Text → Int) (as : List Action) (h : l.balance = l.credits - l.debits) :
    (run amountPaid as l).balance = (run amountPaid as l).credits - (run amountPaid as l).debits := by
  induction as generalizing l with
  | nil => exact h
  | cons a rest ih =>
    apply ih
    rcases step_cases l amountPaid a with ⟨hrow, hentries⟩ | ⟨c, now, m, heq⟩
    · unfold balance credits debits
      rw [hrow, hentries]
      exact h
    · have hsum : ((l.applyMovement now m).endCall c).credits - ((l.applyMovement now m).endCall c).debits =
          l.credits - l.debits + m.delta := sum_applyMovement
      have hbalance : ((l.applyMovement now m).endCall c).balance = l.balance + m.delta := balance_applyMovement
      rw [heq, hsum, hbalance, h]

/-- In a run in which every deduction that passes its check is covered, beside those under way and beside what its
invoice got before, the ledger is exact at the end; the run may end anywhere. -/
theorem exact_of_covered (amountPaid : Text → Int) (as : List Action)
    (hcovered : RunCovered amountPaid as Ledger.empty) : (run amountPaid as Ledger.empty).Exact amountPaid :=
  ((Sound.empty amountPaid).run hcovered).exact (balance_run amountPaid as rfl)

end Ledger

end

/-! ### Deductions that are not covered -/

def someInvoice : Text := "in_1".toList

def threeEuros : Text → Int := fun _ => 300

/-- An invoice is credited once, and then the event comes again. -/
def redelivered : List Action :=
  [.addCredit true 1000 "billed twice".toList [] "admin_1".toList, .next 0 1,
    .invoicePaid someInvoice, .next 1 2, .next 1 2, .next 1 2,
    .invoicePaid someInvoice, .next 2 3, .next 2 3, .next 2 3]

/-- Two events are handled at once, and both find the balance enough. -/
def atOnce : List Action :=
  [.addCredit true 300 "billed twice".toList [] "admin_1".toList, .next 0 1,
    .invoicePaid someInvoice, .invoicePaid "in_2".toList, .next 1 2, .next 2 2, .next 1 2, .next 2 2, .next 1 2, .next 2 2]

theorem ledger_not_exact : (Ledger.run threeEuros redelivered Ledger.empty).debitsFor someInvoice = 600 ∧
      (Ledger.run threeEuros atOnce Ledger.empty).balance = -300 ∧
      ¬ ∀ (amountPaid : Text → Int) (as : List Action), (Ledger.run amountPaid as Ledger.empty).Exact amountPaid := by
  have htwice : (Ledger.run threeEuros redelivered Ledger.empty).debitsFor someInvoice = 600 := by decide +kernel
  have hbelow : (Ledger.run threeEuros atOnce Ledger.empty).balance = -300 := by decide +kernel
  refine ⟨htwice, hbelow, fun hall => ?_⟩
  have hnonneg := (hall threeEuros atOnce).nonneg
  omega

/-- One invoice, credited once. -/
def creditedOnce : List Action :=
  [.addCredit true 1000 "billed twice".toList [] "admin_1".toList, .next 0 1,
    .invoicePaid someInvoice, .next 1 2, .next 1 2, .next 1 2]

theorem exact_creditedOnce : (Ledger.run threeEuros creditedOnce Ledger.empty).balance = 700 ∧
      (Ledger.run threeEuros creditedOnce Ledger.empty).Exact threeEuros := by
  refine ⟨by decide +kernel, Ledger.exact_of_covered threeEuros creditedOnce ?_⟩
  simp only [Ledger.RunCovered, creditedOnce]
  decide +kernel

end LibreServ.Billing
