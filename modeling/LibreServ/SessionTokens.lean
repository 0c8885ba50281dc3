import LibreServ.Runs

/-! The session tokens of one user, and the table `revoked_tokens`. Calls overlap in any way: each statement of the
database is one step, at a time that is given with it. -/

namespace LibreServ.SessionTokens

inductive TokenType where
  | access
  | refresh
  deriving DecidableEq, Repr

/-- A `token_jti`: that of a token, or `revoke-all-<type>-<user>`. -/
inductive Key where
  | jti (id : Nat)
  | revokeAll (type : TokenType)
  deriving DecidableEq, Repr

/-- A row of `revoked_tokens`. -/
structure Row where
  key : Key
  type : TokenType
  expires_at : Int
  deriving DecidableEq, Repr

def second : Int := 1000000000

/-- `DefaultJWTAccessTokenExpiry` and `DefaultJWTRefreshTokenExpiry`. -/
def expiry : TokenType → Int
  | .access => 15 * 60 * second
  | .refresh => 7 * 24 * 3600 * second

/-- A token that was issued. It stands in the list of all of them, and its place there is its `jti`. `parent` is the
refresh token it was obtained with, `root` the place of the first token of the login it goes back to; `clean` says that
no `RevokeAllTokens` has run since, and none was under way when it was issued. -/
structure Token where
  type : TokenType
  exp : Int
  parent : Option Nat
  root : Nat
  clean : Bool
  deriving DecidableEq, Repr

def Token.unclean (t : Token) : Token := { t with clean := false }

/-- A call under way, by the statement it runs next. `revokeRefresh` has the number of tokens there were when its
`RevokeAllTokens` began. -/
inductive Call where
  | check (token : Nat)
  | reused
  | consume (token : Nat)
  | mint (token : Nat)
  | revokeAll
  | revokeRefresh (issued : Nat)
  | ended
  deriving DecidableEq, Repr

/-- The call is between the two statements of `RevokeAllTokens`. -/
def Call.revoking : Call → Bool
  | .revokeRefresh _ => true
  | _ => false

/-- `spent` lists the refresh tokens that were consumed or revoked; the tokens issued before the last finished
`RevokeAllTokens` began are those before `revoked`. -/
structure State where
  now : Int
  rows : List Row
  tokens : List Token
  calls : List Call
  spent : List Nat
  revoked : Nat
  deriving DecidableEq, Repr

def initial (now : Int) : State := ⟨now, [], [], [], [], 0⟩

inductive Action where
  | login
  | refreshTokensWithRotation (token : Nat)
  | revokeRefreshToken (token : Nat)
  | revokeAllTokens
  | statement (k : Nat)
  | cleanupExpired
  | crash
  deriving DecidableEq, Repr

namespace State

variable (st : State)

/-! ### The token store -/

def has (key : Key) : Bool := st.rows.any fun r => r.key = key

def isRevoked (key : Key) (type : TokenType) : Bool :=
  st.rows.any fun r => r.key = key ∧ r.type = type ∧ r.expires_at > st.now

def isRevokedOrUserRevokedAll (id : Nat) (type : TokenType) : Bool :=
  st.rows.any fun r => r.type = type ∧ (r.key = .jti id ∨ r.key = .revokeAll type) ∧ r.expires_at > st.now

/-- An INSERT, where no row has the key. -/
def insert (key : Key) (type : TokenType) : State := { st with rows := st.rows ++ [⟨key, type, st.now + expiry type⟩] }

def cleanupExpired : State := { st with rows := st.rows.filter fun r => ¬ r.expires_at < st.now }

/-! ### The tokens -/

/-- The `exp` of a token: whole seconds. -/
def exp (type : TokenType) : Int := (st.now + expiry type) / second * second

def revoking : Bool := st.calls.any Call.revoking

def generateTokenPair (parent : Option Nat) (root : Nat) : State :=
  { st with
    tokens := st.tokens ++
      [⟨.access, st.exp .access, parent, root, !st.revoking⟩, ⟨.refresh, st.exp .refresh, parent, root, !st.revoking⟩] }

def setCall (k : Nat) (c : Call) : State := { st with calls := st.calls.set k c }

def spend (token : Nat) : State := { st.insert (.jti token) .refresh with spent := token :: st.spent }

/-- The first statement of `RevokeAllTokens`: where there is such a row already it fails, and the second is not run. -/
def revokeAccess (k : Nat) : State :=
  let st' := { st with tokens := st.tokens.map Token.unclean }
  if st.has (.revokeAll .access) then { st'.setCall k .ended with revoked := max st.revoked st.tokens.length }
  else (st'.insert (.revokeAll .access) .access).setCall k (.revokeRefresh st.tokens.length)

def revokeRefresh (k issued : Nat) : State :=
  let st' := if st.has (.revokeAll .refresh) then st else st.insert (.revokeAll .refresh) .refresh
  { st'.setCall k .ended with revoked := max st.revoked issued }

/-- The next statement of call `k`. -/
def statement (k : Nat) : Call → Option State
  | .check token =>
    some (st.setCall k (if st.isRevokedOrUserRevokedAll token .refresh then .reused else .consume token))
  | .reused => some (st.setCall k (if st.isRevoked (.revokeAll .refresh) .refresh then .ended else .revokeAll))
  | .consume token =>
    if st.has (.jti token) then some (st.setCall k .revokeAll) else some ((st.spend token).setCall k (.mint token))
  | .mint token =>
    st.tokens[token]?.map fun t => (st.generateTokenPair (some token) t.root).setCall k .ended
  | .revokeAll => some (st.revokeAccess k)
  | .revokeRefresh issued => some (st.revokeRefresh k issued)
  | .ended => none

/-- What is done at the time of the state. A refresh token is only looked at while it is one and has not expired. -/
def act : Action → Option State
  | .login => some (st.generateTokenPair none st.tokens.length)
  | .refreshTokensWithRotation token =>
    st.tokens[token]?.bind fun t =>
      if t.type = .refresh ∧ st.now < t.exp then some { st with calls := st.calls ++ [.check token] } else none
  | .revokeRefreshToken token =>
    st.tokens[token]?.bind fun t =>
      if t.type = .refresh then some (if st.has (.jti token) then st else st.spend token) else none
  | .revokeAllTokens => some { st with calls := st.calls ++ [.revokeAll] }
  | .statement k => st.calls[k]?.bind fun c => st.statement k c
  | .cleanupExpired => some st.cleanupExpired
  | .crash => some { st with calls := [] }

/-- Times do not decrease. -/
def step (st : State) (a : Int × Action) : Option State :=
  if st.now ≤ a.1 then act { st with now := a.1 } a.2 else none

end State

end LibreServ.SessionTokens
