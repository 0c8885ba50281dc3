import LibreServ.Runs
import LibreServ.Table

/-! Accounts and invites under concurrent requests: the first setup, the redemption of invites, the deletion of accounts
and the changes an admin makes to others. Every statement is one step, and any of them may fail. -/

namespace LibreServ.Accounts

inductive Role where
  | admin
  | user
  deriving DecidableEq, Repr

/-- A row of `users`, with the invite it was created for. -/
structure User where
  username : String
  email : String
  role : Role
  invite : Option Nat
  deriving DecidableEq, Repr

/-- A row of `invite_tokens`; it goes with the account of its inviter. -/
structure Invite where
  token : String
  email : String
  role : Role
  inviter : Nat
  expiresAt : Int
  redeemed : Bool
  deriving DecidableEq, Repr

/-- A call under way, by the statement it runs next. `undo` says that `DeleteUser` undoes a redemption. -/
inductive Call where
  | countUsers (username email : String)
  | insertAdmin (username email : String)
  | findInvite (token username : String)
  | findUsername (invite : Nat) (email : String) (role : Role) (username : String)
  | findEmail (invite : Nat) (email : String) (role : Role) (username : String)
  | insertUser (invite : Nat) (email : String) (role : Role) (username : String)
  | promote (account invite : Nat) (username email : String)
  | redeem (account invite : Nat)
  | session (account : Nat)
  | findUser (account : Nat) (undo : Bool)
  | countAdmins (account : Nat) (undo : Bool)
  | deleteUser (account : Nat) (undo : Bool)
  | findTarget (requester account : Nat) (email : Option String) (role : Option Role)
  | update (account : Nat) (username email : String) (role : Role)
  | ended
  deriving DecidableEq, Repr

/-- `setups` counts the accounts made by `CompleteSetup`. `joined` lists the redemptions that marked their invite, and
`failed` the accounts made by calls of `RedeemInvite` that returned an error. -/
structure State where
  users : Table Nat User
  invites : Table Nat Invite
  nextId : Nat
  calls : List Call
  setups : Nat
  joined : List (Nat × Nat)
  failed : List Nat
  hadAdmin : Bool

inductive Action where
  | completeSetup (username email : String)
  | redeemInvite (token username : String)
  | deleteUser (requester account : Nat)
  | updateUser (requester account : Nat) (email : Option String) (role : Option Role)
  | statement (k : Nat) (done : Bool) (now : Int)
  deriving DecidableEq, Repr

namespace State

variable (st : State)

def isAdmin (account : Nat) : Bool := (st.users.get? account).any fun u => u.role = .admin

def hasAdmin : Bool := st.users.any fun _ u => u.role = .admin

def adminCount : Nat := (st.users.select fun _ u => u.role = .admin).length

def setCall (k : Nat) (c : Call) : State := { st with calls := st.calls.set k c }

/-- `INSERT INTO users`, where the name is not taken. -/
def insertUser (username email : String) (role : Role) (invite : Option Nat) : State :=
  { st with users := st.users.put st.nextId ⟨username, email, role, invite⟩, nextId := st.nextId + 1 }

def taken (username : String) : Bool := st.users.any fun _ u => u.username = username

/-- `UPDATE users SET username = ?, email = ?, role = ? WHERE id = ?` -/
def updateUser (account : Nat) (username email : String) (role : Role) : State :=
  { st with
    users := st.users.update fun id u => if id = account then ⟨username, email, role, u.invite⟩ else u }

def eraseUser (account : Nat) : State :=
  { st with users := st.users.erase account, invites := st.invites.keep fun _ inv => inv.inviter ≠ account }

def markRedeemed (invite account : Nat) : State :=
  { st with
    invites := st.invites.update fun id inv => if id = invite then { inv with redeemed := true } else inv
    joined := (invite, account) :: st.joined }

/-- `RedeemInvite` returns an error after it has made this account. -/
def fail (account k : Nat) : State := { st.setCall k .ended with failed := account :: st.failed }

/-- `DeleteUser` ends; where it undid a redemption, that returns its error. -/
def endDelete (account : Nat) (undo : Bool) (k : Nat) : State := if undo then st.fail account k else st.setCall k .ended

/-- The next statement of call `k`; `done` says that it does not fail. A check for a name or an address that fails finds
none. -/
def statement (k : Nat) (done : Bool) (now : Int) : Call → Option State
  | .countUsers username email =>
    some (st.setCall k (if done && st.users.rows.isEmpty then .insertAdmin username email else .ended))
  | .insertAdmin username email =>
    if done && !st.taken username then
      some { (st.insertUser username email .admin none).setCall k .ended with setups := st.setups + 1 }
    else some (st.setCall k .ended)
  | .findInvite token username =>
    match st.invites.rows.find? fun row => row.2.token = token && !row.2.redeemed with
    | some (id, inv) =>
      some (st.setCall k (if !done || decide (now > inv.expiresAt) then .ended
        else .findUsername id inv.email inv.role username))
    | none => some (st.setCall k .ended)
  | .findUsername invite email role username =>
    some (st.setCall k (if done && st.taken username then .ended
      else if email = "" then .insertUser invite email role username else .findEmail invite email role username))
  | .findEmail invite email role username =>
    some (st.setCall k (if done && st.users.any fun _ u => u.email = email then .ended
      else .insertUser invite email role username))
  | .insertUser invite email role username =>
    if done && !st.taken username then
      some ((st.insertUser username email .user (some invite)).setCall k
        (if role = .admin then .promote st.nextId invite username email else .redeem st.nextId invite))
    else some (st.setCall k .ended)
  | .promote account invite username email =>
    if done then some ((st.updateUser account username email .admin).setCall k (.redeem account invite))
    else some (st.fail account k)
  | .redeem account invite =>
    if done then
      if (st.invites.get? invite).any fun inv => !inv.redeemed then
        some ((st.markRedeemed invite account).setCall k (.session account))
      else some (st.setCall k (.findUser account true))
    else some (st.fail account k)
  | .session account =>
    some (if done && (st.users.get? account).isSome then st.setCall k .ended else st.fail account k)
  | .findUser account undo =>
    match st.users.get? account with
    | some u =>
      some (if done then st.setCall k (if u.role = .admin then .countAdmins account undo else .deleteUser account undo)
        else st.endDelete account undo k)
    | none => some (st.endDelete account undo k)
  | .countAdmins account undo =>
    some (if done && decide (st.adminCount > 1) then st.setCall k (.deleteUser account undo)
      else st.endDelete account undo k)
  | .deleteUser account undo =>
    some (if done then (st.eraseUser account).endDelete account undo k else st.endDelete account undo k)
  | .findTarget requester account email role =>
    match st.users.get? account with
    | some u =>
      some (st.setCall k (if !done || (role.any (· ≠ u.role) && decide (requester = account)) then .ended
        else .update account u.username (email.getD u.email) (role.getD u.role)))
    | none => some (st.setCall k .ended)
  | .update account username email role =>
    some (if done then (st.updateUser account username email role).setCall k .ended else st.setCall k .ended)
  | .ended => none

/-- Accounts are deleted, and their roles changed, by an admin other than their own. -/
def act : Action → Option State
  | .completeSetup username email => some { st with calls := st.calls ++ [.countUsers username email] }
  | .redeemInvite token username => some { st with calls := st.calls ++ [.findInvite token username] }
  | .deleteUser requester account =>
    if st.isAdmin requester ∧ requester ≠ account then some { st with calls := st.calls ++ [.findUser account false] }
    else none
  | .updateUser requester account email role =>
    if st.isAdmin requester ∧ requester ≠ account then
      some { st with calls := st.calls ++ [.findTarget requester account email role] }
    else none
  | .statement k done now => st.calls[k]?.bind fun c => st.statement k done now c

def step (st : State) (a : Action) : Option State :=
  (st.act a).map fun st' => { st' with hadAdmin := st'.hadAdmin || st'.hasAdmin }

end State

end LibreServ.Accounts
