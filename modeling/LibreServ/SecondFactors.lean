import LibreServ.Runs

/-! The second factors of one user: recovery codes, codes sent by mail, and the methods themselves. Every database
statement is one step, so that calls overlap in any way; the codes sent by mail live in memory, under a lock that a call
holds from its start to its end. -/

namespace LibreServ.SecondFactors

/-- A row of `mfa_recovery_codes`; `used` says that `used_at` is not null. -/
structure RecoveryCode (Hash : Type) where
  id : Nat
  code_hash : Hash
  used : Bool
  deriving DecidableEq, Repr

/-- A row of `mfa_methods`. -/
structure Method where
  id : String
  enabled : Bool
  deriving DecidableEq, Repr

/-- `emailOTPData`, with the number of the issue. -/
structure EmailOTP where
  code : String
  expiresAt : Int
  tries : Nat
  issue : Nat
  deriving DecidableEq, Repr

/-- A guess that was compared with the code of an issue. -/
structure Guess where
  issue : Nat
  right : Bool
  deriving DecidableEq, Repr

/-- A call under way, by what it does next. -/
inductive Call (Hash : Type) where
  | verify (code : String)
  | marking (id : Nat)
  | generate (hashes : List Hash)
  | storing (hashes : List Hash)
  | delete (method : String)
  | counting (method : String)
  | deleting (method : String)
  | ended
  deriving DecidableEq, Repr

/-- How a call starts. The hashes of the new codes are random. -/
inductive Request (Hash : Type) where
  | verifyRecoveryCode (code : String)
  | generateRecoveryCodes (hashes : List Hash)
  | deleteMFAMethod (method : String)
  deriving DecidableEq, Repr

/-- `spent` lists the rows whose code let a call succeed, and `guesses` the guesses at codes sent by mail. -/
structure State (Hash : Type) where
  codes : List (RecoveryCode Hash)
  nextId : Nat
  methods : List Method
  emailOTPs : String → Option EmailOTP
  issues : Nat
  calls : List (Call Hash)
  spent : List Nat
  guesses : List Guess

inductive Action (Hash : Type) where
  | call (request : Request Hash)
  | statement (k : Nat) (done : Bool)
  | issueEmailOTP (method code : String) (now : Int)
  | verifyEmailOTP (method code : String) (now : Int)
  deriving DecidableEq, Repr

/-- Ten minutes, in nanoseconds. -/
def otpTTL : Int := 10 * 60 * 1000000000

namespace State

variable {Hash : Type}

/-- The calls there may be of before the first of these, and what is in the database then. -/
def initial (codes : List (RecoveryCode Hash)) (nextId : Nat) (methods : List Method) : State Hash :=
  ⟨codes, nextId, methods, fun _ => none, 0, [], [], []⟩

variable (st : State Hash)

def setCall (k : Nat) (c : Call Hash) : State Hash := { st with calls := st.calls.set k c }

def request : Request Hash → Call Hash
  | .verifyRecoveryCode code => .verify code
  | .generateRecoveryCodes hashes => .generate hashes
  | .deleteMFAMethod method => .delete method

def countEnabledMFA : Nat := st.methods.countP Method.enabled

/-- `UPDATE mfa_recovery_codes SET used_at = ? WHERE id = ?`; the call has succeeded. -/
def markUsed (id : Nat) : State Hash :=
  { st with codes := st.codes.map fun c => if c.id = id then { c with used := true } else c, spent := id :: st.spent }

def insertCode (hash : Hash) : State Hash :=
  { st with codes := st.codes ++ [⟨st.nextId, hash, false⟩], nextId := st.nextId + 1 }

def deleteMethod (method : String) : State Hash := { st with methods := st.methods.filter fun m => m.id ≠ method }

/-- The next statement of call `k`. The passwords are compared between two statements. -/
def statement (verifyPassword : Hash → String → Bool) (k : Nat) (c : Call Hash) : Option (State Hash) :=
  match c with
  | .verify code =>
    match (st.codes.filter fun c => !c.used).find? fun c => verifyPassword c.code_hash code with
    | some c => some (st.setCall k (.marking c.id))
    | none => some (st.setCall k .ended)
  | .marking id => some ((st.markUsed id).setCall k .ended)
  | .generate hashes => some (setCall { st with codes := [] } k (.storing hashes))
  | .storing [] => some (st.setCall k .ended)
  | .storing (hash :: rest) => some ((st.insertCode hash).setCall k (.storing rest))
  | .delete method =>
    match st.methods.find? fun m => m.id = method with
    | some m => some (st.setCall k (if m.enabled then .counting method else .deleting method))
    | none => some (st.setCall k .ended)
  | .counting method => some (st.setCall k (if st.countEnabledMFA ≤ 1 then .ended else .deleting method))
  | .deleting method => some ((st.deleteMethod method).setCall k .ended)
  | .ended => none

def issueEmailOTP (method code : String) (now : Int) : State Hash :=
  { st with
    emailOTPs := Function.update st.emailOTPs method (some ⟨code, now + otpTTL, 0, st.issues⟩)
    issues := st.issues + 1 }

def verifyEmailOTP (method code : String) (now : Int) : State Hash :=
  match st.emailOTPs method with
  | none => st
  | some d =>
    if now > d.expiresAt then { st with emailOTPs := Function.update st.emailOTPs method none }
    else if d.tries ≥ 5 then { st with emailOTPs := Function.update st.emailOTPs method none }
    else
      { st with
        emailOTPs := Function.update st.emailOTPs method (if d.code ≠ code then some { d with tries := d.tries + 1 } else none)
        guesses := ⟨d.issue, d.code = code⟩ :: st.guesses }

/-- A statement that fails ends its call and changes nothing. -/
def step (verifyPassword : Hash → String → Bool) (st : State Hash) : Action Hash → Option (State Hash)
  | .call r => some { st with calls := st.calls ++ [request r] }
  | .statement k done => st.calls[k]?.bind fun c => if done then st.statement verifyPassword k c else some (st.setCall k .ended)
  | .issueEmailOTP method code now => some (st.issueEmailOTP method code now)
  | .verifyEmailOTP method code now => some (st.verifyEmailOTP method code now)

end State

end LibreServ.SecondFactors
