import LibreServ.Runs
import LibreServ.Table

/-! The storage behind single sign-on: auth requests and their codes, access tokens and refresh tokens, in maps that
name each other's entries. -/

namespace LibreServ.SignOn

structure AuthRequest where
  id : String
  clientID : String
  subject : String
  audience : List String
  scopes : List String
  authTime : Int
  deriving DecidableEq, Repr

/-- What a token goes back to: the client, the subject and the audience of the request it descends from. -/
structure Origin where
  clientID : String
  subject : String
  audience : List String
  deriving DecidableEq, Repr

/-- `origin` is kept beside the fields of the source, here and below; nothing reads it. -/
structure Token where
  applicationID : String
  refreshTokenID : String
  subject : String
  audience : List String
  scopes : List String
  expiration : Int
  origin : Option Origin
  deriving DecidableEq, Repr

structure RefreshToken where
  applicationID : String
  userID : String
  accessTokenID : String
  audience : List String
  scopes : List String
  amr : List String
  authTime : Int
  expiration : Int
  origin : Option Origin
  deriving DecidableEq, Repr

structure RefreshTokenRequest where
  applicationID : String
  userID : String
  amr : List String
  authTime : Int
  scopes : List String
  origin : Option Origin
  deriving DecidableEq, Repr

/-- The token requests the provider hands to the storage. Those of the last kind go back to no auth request. -/
inductive TokenRequest where
  | auth (req : AuthRequest)
  | exchange (clientID subject : String) (audience scopes : List String)
  | refresh (req : RefreshTokenRequest)
  | other (subject : String) (audience scopes : List String)
  deriving DecidableEq, Repr

namespace TokenRequest

def subject : TokenRequest → String
  | auth req => req.subject
  | exchange _ subject _ _ => subject
  | refresh req => req.userID
  | other subject _ _ => subject

/-- That of a refresh request is nil. -/
def audience : TokenRequest → List String
  | auth req => req.audience
  | exchange _ _ audience _ => audience
  | refresh _ => []
  | other _ audience _ => audience

def scopes : TokenRequest → List String
  | auth req => req.scopes
  | exchange _ _ _ scopes => scopes
  | refresh req => req.scopes
  | other _ _ scopes => scopes

def origin : TokenRequest → Option Origin
  | auth req => some ⟨req.clientID, req.subject, req.audience⟩
  | exchange clientID subject audience _ => some ⟨clientID, subject, audience⟩
  | refresh req => req.origin
  | other .. => none

/-- The client id `CreateAccessToken` records. -/
def clientOfAccess : TokenRequest → String
  | auth req => req.clientID
  | exchange clientID .. => clientID
  | _ => ""

/-- The one `CreateAccessAndRefreshTokens` records. -/
def clientOfBoth : TokenRequest → String
  | auth req => req.id
  | exchange clientID .. => clientID
  | refresh req => req.applicationID
  | other .. => ""

def authTime : TokenRequest → Int
  | auth req => req.authTime
  | refresh req => req.authTime
  | _ => 0

def amr : TokenRequest → List String
  | refresh req => req.amr
  | _ => []

end TokenRequest

/-- The four maps; with them, every id that was made, every auth request, the refresh requests that were handed out with
the token they were read from, and the refresh tokens that were rotated or revoked. -/
structure State where
  authRequests : Table String AuthRequest
  codes : Table String String
  tokens : Table String Token
  refreshTokens : Table String RefreshToken
  used : List String
  made : List AuthRequest
  held : List (String × RefreshTokenRequest)
  gone : List String

def initial : State := ⟨.empty, .empty, .empty, .empty, [], [], [], []⟩

def hour : Int := 3600 * 1000000000

inductive Action where
  | createAuthRequest (id clientID subject : String) (scopes : List String) (now : Int)
  | saveAuthCode (id code : String)
  | deleteAuthRequest (id : String)
  | createAccessToken (id : String) (request : TokenRequest) (now : Int)
  | createAccessAndRefreshTokens (id rtID : String) (request : TokenRequest) (currentRefreshToken : String) (now : Int)
  | tokenRequestByRefreshToken (refreshToken : String)
  | terminateSession (userID clientID : String)
  | revokeToken (tokenOrTokenID clientID : String)
  deriving DecidableEq, Repr

namespace State

variable (st : State)

/-- An id the storage may make: no other is like it. -/
def Fresh (id : String) : Prop := id ∉ st.used ∧ id ≠ ""

instance (id : String) : Decidable (st.Fresh id) := inferInstanceAs (Decidable (_ ∧ _))

def createAuthRequest (id clientID subject : String) (scopes : List String) (now : Int) : State :=
  let request : AuthRequest := ⟨id, clientID, subject, [clientID], scopes, now⟩
  { st with authRequests := st.authRequests.put id request, used := id :: st.used, made := request :: st.made }

/-- No error where the request of the code is not there: then the result is a nil request. -/
def authRequestByCode (code : String) : Except String (Option AuthRequest) :=
  match st.codes.get? code with
  | some requestID => .ok (st.authRequests.get? requestID)
  | none => .error "code invalid or expired"

def saveAuthCode (id code : String) : State := { st with codes := st.codes.put code id }

def deleteAuthRequest (id : String) : State :=
  { st with authRequests := st.authRequests.erase id, codes := st.codes.keep fun _ rid => rid ≠ id }

def createAccessToken (id applicationID refreshTokenID : String) (request : TokenRequest) (now : Int) : State :=
  { st with
    tokens := st.tokens.put id
      ⟨applicationID, refreshTokenID, request.subject, request.audience, request.scopes, now + hour, request.origin⟩
    used := id :: st.used }

def putRefreshToken (rtID id : String) (request : TokenRequest) (amr : List String) (authTime now : Int) : State :=
  { st with
    refreshTokens := st.refreshTokens.put rtID
      ⟨request.clientOfBoth, request.subject, id, request.audience, request.scopes, amr, authTime, now + 24 * hour,
        request.origin⟩
    used := rtID :: st.used }

/-- `delete(s.refreshTokens, …)`, and its access token with it. -/
def dropRefreshToken (rtID : String) (rt : RefreshToken) : State :=
  { st with
    refreshTokens := st.refreshTokens.erase rtID
    tokens := if rt.accessTokenID ≠ "" then st.tokens.erase rt.accessTokenID else st.tokens
    gone := rtID :: st.gone }

/-- Nothing for a refresh token that is not there. -/
def createAccessAndRefreshTokens (id rtID : String) (request : TokenRequest) (currentRefreshToken : String) (now : Int) :
    Option State :=
  match request with
  | .exchange clientID .. =>
    some ((st.createAccessToken id clientID "" request now).putRefreshToken rtID id request [] now now)
  | _ =>
    if currentRefreshToken = "" then
      some ((st.createAccessToken id request.clientOfBoth rtID request now).putRefreshToken rtID id request request.amr
        request.authTime now)
    else
      (st.refreshTokens.get? currentRefreshToken).map fun currentRT =>
        ((st.dropRefreshToken currentRefreshToken currentRT).createAccessToken id request.clientOfBoth rtID request
          now).putRefreshToken rtID id request currentRT.amr request.authTime now

def tokenRequestByRefreshToken (refreshToken : String) : Option RefreshTokenRequest :=
  (st.refreshTokens.get? refreshToken).map fun rt =>
    ⟨rt.applicationID, rt.userID, rt.amr, rt.authTime, rt.scopes, rt.origin⟩

/-- The access tokens `TerminateSession` removes. -/
def inSession (userID clientID : String) (token : Token) : Bool :=
  token.applicationID = clientID ∧ token.subject = userID

def terminateSession (userID clientID : String) : State :=
  { st with
    tokens := st.tokens.keep fun _ token => !inSession userID clientID token
    refreshTokens := st.refreshTokens.keep fun rtID _ =>
      !st.tokens.any fun _ token => inSession userID clientID token && token.refreshTokenID ≠ "" && token.refreshTokenID = rtID }

/-- Nothing for a token of another client. -/
def revokeToken (tokenOrTokenID clientID : String) : Option State :=
  match st.tokens.get? tokenOrTokenID with
  | some token =>
    if token.applicationID ≠ clientID then none else some { st with tokens := st.tokens.erase tokenOrTokenID }
  | none =>
    match st.refreshTokens.get? tokenOrTokenID with
    | some rt => if rt.applicationID ≠ clientID then none else some (st.dropRefreshToken tokenOrTokenID rt)
    | none => some st

/-- The provider hands over requests that the storage made, and a refresh request with the token it was read from. -/
def Handed (request : TokenRequest) (currentRefreshToken : String) : Prop :=
  match request with
  | .auth req => req ∈ st.made ∧ currentRefreshToken = ""
  | .refresh req => (currentRefreshToken, req) ∈ st.held
  | .exchange .. | .other .. => currentRefreshToken = ""

instance : ∀ request current, Decidable (st.Handed request current)
  | .auth _, _ => inferInstanceAs (Decidable (_ ∧ _))
  | .refresh _, _ => inferInstanceAs (Decidable (_ ∈ _))
  | .exchange .., _ | .other .., _ => inferInstanceAs (Decidable (_ = _))

/-- A call that fails changes nothing and is no step. -/
def step (st : State) : Action → Option State
  | .createAuthRequest id clientID subject scopes now =>
    if st.Fresh id then some (st.createAuthRequest id clientID subject scopes now) else none
  | .saveAuthCode id code => some (st.saveAuthCode id code)
  | .deleteAuthRequest id => some (st.deleteAuthRequest id)
  | .createAccessToken id request now =>
    if st.Fresh id ∧ st.Handed request "" then some (st.createAccessToken id request.clientOfAccess "" request now)
    else none
  | .createAccessAndRefreshTokens id rtID request current now =>
    if st.Fresh id ∧ st.Fresh rtID ∧ id ≠ rtID ∧ st.Handed request current then
      st.createAccessAndRefreshTokens id rtID request current now
    else none
  | .tokenRequestByRefreshToken refreshToken =>
    (st.tokenRequestByRefreshToken refreshToken).map fun req => { st with held := (refreshToken, req) :: st.held }
  | .terminateSession userID clientID => some (st.terminateSession userID clientID)
  | .revokeToken tokenOrTokenID clientID => st.revokeToken tokenOrTokenID clientID

end State

end LibreServ.SignOn
