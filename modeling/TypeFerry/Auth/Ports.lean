import Mathlib.Data.Multiset.Defs
import TypeFerry.Auth.SessionManager

/-! # The session managers of the ports

The session manager of the Go port and that of the Python port, and the calls that all
three managers answer. The Go map is unordered: what an iteration over it depends on is
given the order in which it goes. Fresh identifiers are taken from one sequence, from which
each manager draws as its code does. Signing succeeds, and the clock stands still during a
call. -/
namespace TypeFerry.Auth.Ports
open TypeFerry.Lib.Numeral TypeFerry.Lib.OrderedMap TypeFerry.Auth.SessionManager

/-! ## Go -/

namespace Go

structure Session where
  id : Text
  userID : Text
  familyID : Text
  token : Text
  /-- A time is in nanoseconds since 1970. -/
  expiration : ℤ
  revoked : Bool
  replacedBy : Text
  usedAt : ℤ
  deriving DecidableEq

/-- `time.Time{}` is the first of January of the year 1. -/
def zeroTime : ℤ := -62135596800 * 1000000000

structure AccessTokenPayload where
  userID : Text
  sessionID : Text
  issuedAt : ℤ
  expiresAt : ℤ

structure TokenPair where
  accessToken : Text
  refreshToken : Text
  expiresAt : ℤ

/-- A `time.Duration` is in nanoseconds. -/
structure Config where
  accessTokenExpiry : ℤ
  refreshTokenExpiry : ℤ
  rotationGracePeriod : ℤ
  signAccessToken : AccessTokenPayload → Text

/-- `t.Sub(u)`, as far as a duration goes. -/
def sub (t u : ℤ) : ℤ := max (-2 ^ 63) (min (2 ^ 63 - 1) (t - u))

structure Manager where
  sessions : OMap Text Session
  now : ℤ
  /-- the number of identifiers that were drawn -/
  drawn : ℕ

namespace Manager
variable (config : Config) (fresh : ℕ → Text) (range : RangeOrder (Text × Session))

def pairLocked (m : Manager) (session : Session) : TokenPair :=
  let expiry := m.now + config.accessTokenExpiry
  ⟨config.signAccessToken ⟨session.userID, session.id, m.now / 1000000000, expiry / 1000000000⟩,
    session.token, expiry⟩

def createLocked (m : Manager) (userID familyID : Text) : Manager × TokenPair :=
  let token := fresh m.drawn
  let sessionID := fresh (m.drawn + 1)
  let session : Session :=
    ⟨sessionID, userID, familyID, token, m.now + config.refreshTokenExpiry, false, [], zeroTime⟩
  let m := { m with sessions := m.sessions.set token session, drawn := m.drawn + 2 }
  (m, m.pairLocked config session)

def createSession (m : Manager) (userID : Text) : Manager × Except Text TokenPair :=
  if userID = [] then (m, .error (js "user ID is required"))
  else
    let familyID := fresh m.drawn
    let m := { m with drawn := m.drawn + 1 }
    let (m, pair) := m.createLocked config fresh userID familyID
    (m, .ok pair)

/-- The sessions that meet `p` are revoked, and those of them that were not are counted. -/
def revokeWhere (m : Manager) (p : Session → Bool) : Manager × ℕ :=
  let sessions := m.sessions.mapValues fun t => if p t && !t.revoked then { t with revoked := true } else t
  ({ m with sessions }, (m.sessions.values.filter fun t => p t && !t.revoked).length)

def revokeFamilyLocked (m : Manager) (id : Text) : Manager × ℕ := m.revokeWhere fun t => t.familyID = id

def refreshSession (m : Manager) (token : Text) : Manager × Except Text TokenPair :=
  match m.sessions.get token with
  | none => (m, .error (js "refresh session is unavailable"))
  | some session =>
    if session.revoked ∨ session.expiration < m.now then (m, .error (js "refresh session is unavailable"))
    else if session.replacedBy ≠ [] then
      if session.usedAt = zeroTime ∨ config.rotationGracePeriod < sub m.now session.usedAt then
        ((m.revokeFamilyLocked session.familyID).1, .error (js "refresh token was reused"))
      else match m.sessions.get session.replacedBy with
        | none => (m, .error (js "replacement session is unavailable"))
        | some replacement =>
          if replacement.revoked then (m, .error (js "replacement session is unavailable"))
          else (m, .ok (m.pairLocked config replacement))
    else
      let (m, pair) := m.createLocked config fresh session.userID session.familyID
      -- The session is the one under `token`, which is now in the map beside the new one.
      let session := { session with replacedBy := pair.refreshToken, usedAt := m.now }
      ({ m with sessions := m.sessions.set token session }, .ok pair)

def revokeSession (m : Manager) (id : Text) : Manager × Bool :=
  match (range.order m.sessions.entries).find? fun e => decide (e.2.id = id) with
  | some (token, session) =>
    let session := { session with revoked := true }
    ({ m with sessions := m.sessions.set token session }, true)
  | none => (m, false)

def revokeFamily (m : Manager) (id : Text) : Manager × ℕ := m.revokeFamilyLocked id

def userSessions (m : Manager) (userID : Text) : List Session :=
  ((range.order m.sessions.entries).map Prod.snd).filter fun t =>
    t.userID = userID && !t.revoked && t.replacedBy = [] && m.now < t.expiration

def revokeAllUserSessions (m : Manager) (userID exceptFamilyID : Text) : Manager × ℕ :=
  m.revokeWhere fun t => t.userID = userID && t.familyID ≠ exceptFamilyID

def cleanup (m : Manager) : Manager :=
  { m with sessions := m.sessions.filterValues fun t => !(t.revoked || !decide (m.now < t.expiration)) }

end Manager

end Go

/-! ## Python -/

namespace Py

structure Session where
  id : Text
  user_id : Text
  family_id : Text
  token : Text
  /-- In seconds. -/
  expiration : ℤ
  is_revoked : Bool
  replaced_by : Option Text
  /-- In milliseconds. -/
  used_at : Option ℤ
  deriving DecidableEq

structure AccessTokenPayload where
  user_id : Text
  session_id : Text
  iat : ℤ
  exp : ℤ

structure TokenPair where
  access_token : Text
  refresh_token : Text
  exp : ℤ

structure AuthConfig where
  access_token_expiry_minutes : ℤ
  refresh_token_expiry_days : ℤ
  rotation_grace_period_seconds : ℤ
  sign_access_token : AccessTokenPayload → Text

structure Manager where
  sessions : OMap Text Session
  /-- `time.time()`, in whole seconds -/
  time : ℤ
  /-- the number of identifiers that were drawn -/
  drawn : ℕ

namespace Manager
variable (config : AuthConfig) (fresh : ℕ → Text)

def buildTokenPair (m : Manager) (refresh_token user_id session_id : Text) : TokenPair :=
  let exp := m.time + config.access_token_expiry_minutes * 60
  ⟨config.sign_access_token ⟨user_id, session_id, m.time, exp⟩, refresh_token, exp⟩

def createSession (m : Manager) (user_id : Text) : Manager × TokenPair :=
  let family_id := fresh m.drawn
  let token := fresh (m.drawn + 1)
  let session_id := fresh (m.drawn + 2)
  let expiration := m.time + config.refresh_token_expiry_days * 86400
  let session : Session := ⟨session_id, user_id, family_id, token, expiration, false, none, none⟩
  let m := { m with sessions := m.sessions.set token session, drawn := m.drawn + 3 }
  (m, m.buildTokenPair config token user_id session_id)

/-- The sessions that meet `p` are revoked, and those of them that were not are counted. -/
def revokeWhere (m : Manager) (p : Session → Bool) : Manager × ℕ :=
  let sessions := m.sessions.mapValues fun t =>
    if p t && !t.is_revoked then { t with is_revoked := true } else t
  ({ m with sessions }, (m.sessions.values.filter fun t => p t && !t.is_revoked).length)

def handleReusedToken (m : Manager) (session : Session) : Manager × Option TokenPair :=
  let grace_ms := config.rotation_grace_period_seconds * 1000
  if session.used_at.all fun used_at => grace_ms < m.time * 1000 - used_at then
    ((m.revokeWhere fun t => t.family_id = session.family_id).1, none)
  else (m, match session.replaced_by.bind m.sessions.get with
    | none => none
    | some next =>
      if next.is_revoked then none else some (m.buildTokenPair config next.token next.user_id next.id))

def rotateSession (m : Manager) (session : Session) : Manager × TokenPair :=
  let new_token := fresh m.drawn
  let new_session_id := fresh (m.drawn + 1)
  let expiration := m.time + config.refresh_token_expiry_days * 86400
  let new_session : Session :=
    ⟨new_session_id, session.user_id, session.family_id, new_token, expiration, false, none, none⟩
  let session := { session with replaced_by := some new_token, used_at := some (m.time * 1000) }
  let sessions := (m.sessions.set session.token session).set new_token new_session
  let m := { m with drawn := m.drawn + 2, sessions }
  (m, m.buildTokenPair config new_token session.user_id new_session_id)

def refreshSession (m : Manager) (refresh_token : Text) : Manager × Option TokenPair :=
  match m.sessions.get refresh_token with
  | none => (m, none)
  | some session =>
    if session.is_revoked then (m, none)
    else if session.expiration < m.time then (m, none)
    else if session.replaced_by.isSome then m.handleReusedToken config session
    else
      let (m, pair) := m.rotateSession config fresh session
      (m, some pair)

def revokeSession (m : Manager) (session_id : Text) : Manager × Bool :=
  let sessions := m.sessions.changeFirst (fun t => t.id = session_id) fun t => { t with is_revoked := true }
  ({ m with sessions }, m.sessions.values.any fun t => t.id = session_id)

def revokeFamily (m : Manager) (family_id : Text) : Manager × ℕ :=
  m.revokeWhere fun t => t.family_id = family_id

def getUserSessions (m : Manager) (user_id : Text) : List Session :=
  m.sessions.values.filter fun t =>
    t.user_id = user_id && !t.is_revoked && t.replaced_by.isNone && m.time < t.expiration

def revokeAllUserSessions (m : Manager) (user_id : Text) (except_family_id : Option Text) : Manager × ℕ :=
  m.revokeWhere fun t => t.user_id = user_id && except_family_id.all (t.family_id ≠ ·)

def cleanup (m : Manager) : Manager :=
  { m with sessions := m.sessions.filterValues fun t => !(t.is_revoked || t.expiration ≤ m.time) }

end Manager

end Py

/-! ## Calls and their outcomes -/

inductive Call where
  | createSession (userId : Text)
  | refreshSession (refreshToken : Text)
  | revokeSession (sessionId : Text)
  | revokeFamily (familyId : Text)
  | revokeAllUserSessions (userId : Text) (exceptFamilyId : Option Text)
  | getUserSessions (userId : Text)
  | cleanup
  /-- Time goes by. -/
  | wait (seconds : ℕ)

/-- The user identifier of a new session is not empty. -/
def Call.Named : Call → Prop
  | .createSession userId => userId ≠ []
  | _ => True

/-- A session, as far as it is compared. -/
structure Listed where
  id : Text
  userId : Text
  familyId : Text
  token : Text
  deriving DecidableEq

inductive Outcome where
  /-- a token, and the family and the user of its session -/
  | pair (token : Text) (owner : Option (Text × Text))
  | refused
  | revoked (found : Bool)
  | count (n : ℕ)
  | sessions (listed : Multiset Listed)
  | done
  deriving DecidableEq

def listed (sessions : List Listed) : Outcome := .sessions sessions

/-- A configuration that all three managers can be given. -/
structure Settings where
  minutes : ℤ
  days : ℤ
  graceSeconds : ℤ
  /-- The grace period is a `time.Duration`. -/
  duration : -2 ^ 63 ≤ graceSeconds * 1000000000 ∧ graceSeconds * 1000000000 < 2 ^ 63

/-! ### TypeScript -/

namespace Ts

/-- A manager with the number of identifiers that were drawn. -/
structure Manager where
  state : State
  drawn : ℕ

def config (settings : Settings) : AuthConfig :=
  ⟨some settings.minutes, some settings.days, some settings.graceSeconds, fun payload => payload.userId⟩

def Manager.pair (s : State) (pair : Option TokenPair) : Outcome :=
  match pair with
  | none => .refused
  | some pair => .pair pair.refreshToken ((s.sessions.get pair.refreshToken).map fun x => (x.familyId, x.userId))

/-- Whether `refreshSession` comes to `rotateSession`, which draws. -/
def Manager.rotates (s : State) (refreshToken : Text) : Bool :=
  (s.sessions.get refreshToken).any fun x => !x.isRevoked && !x.isExpired s.now && !x.isReplaced

def Manager.call (settings : Settings) (fresh : ℕ → Text) (m : Manager) : Call → Manager × Outcome
  | .createSession userId =>
    let (s, pair) := m.state.createSession (config settings) userId (fresh m.drawn) (fresh (m.drawn + 1))
      (fresh (m.drawn + 2))
    (⟨s, m.drawn + 3⟩, Manager.pair s (some pair))
  | .refreshSession refreshToken =>
    let (s, pair) := m.state.refreshSession (config settings) refreshToken (fresh m.drawn) (fresh (m.drawn + 1))
    (⟨s, if Manager.rotates m.state refreshToken then m.drawn + 2 else m.drawn⟩, Manager.pair s pair)
  | .revokeSession sessionId =>
    let (s, found) := m.state.revokeSession sessionId
    (⟨s, m.drawn⟩, .revoked found)
  | .revokeFamily familyId =>
    let (s, n) := m.state.revokeFamily familyId
    (⟨s, m.drawn⟩, .count n)
  | .revokeAllUserSessions userId exceptFamilyId =>
    let (s, n) := m.state.revokeAllUserSessions userId exceptFamilyId
    (⟨s, m.drawn⟩, .count n)
  | .getUserSessions userId =>
    (m, listed ((m.state.getUserSessions userId).map fun x => ⟨x.id, x.userId, x.familyId, x.token⟩))
  | .cleanup => (⟨m.state.cleanup, m.drawn⟩, .done)
  | .wait seconds => (⟨m.state.advance (seconds * 1000), m.drawn⟩, .done)

/-- A new manager at a time in seconds. -/
def new (now : ℕ) : Manager := ⟨init (now * 1000), 0⟩

end Ts

/-! ### Go -/

namespace Go

def config (settings : Settings) : Config :=
  ⟨settings.minutes * 60 * 1000000000, settings.days * 86400 * 1000000000,
    settings.graceSeconds * 1000000000, fun payload => payload.userID⟩

def Manager.pair (m : Manager) (pair : Except Text TokenPair) : Outcome :=
  match pair with
  | .error _ => .refused
  | .ok pair => .pair pair.refreshToken ((m.sessions.get pair.refreshToken).map fun x => (x.familyID, x.userID))

/-- No excepted family is the empty text. -/
def Manager.call (settings : Settings) (fresh : ℕ → Text) (range : RangeOrder (Text × Session)) (m : Manager) :
    Call → Manager × Outcome
  | .createSession userId =>
    let (m, pair) := m.createSession (config settings) fresh userId
    (m, m.pair pair)
  | .refreshSession refreshToken =>
    let (m, pair) := m.refreshSession (config settings) fresh refreshToken
    (m, m.pair pair)
  | .revokeSession sessionId =>
    let (m, found) := m.revokeSession range sessionId
    (m, .revoked found)
  | .revokeFamily familyId =>
    let (m, n) := m.revokeFamily familyId
    (m, .count n)
  | .revokeAllUserSessions userId exceptFamilyId =>
    let (m, n) := m.revokeAllUserSessions userId (exceptFamilyId.getD [])
    (m, .count n)
  | .getUserSessions userId =>
    (m, listed ((m.userSessions range userId).map fun x => ⟨x.id, x.userID, x.familyID, x.token⟩))
  | .cleanup => (m.cleanup, .done)
  | .wait seconds => ({ m with now := m.now + seconds * 1000000000 }, .done)

def new (now : ℕ) : Manager := ⟨OMap.empty, now * 1000000000, 0⟩

end Go

/-! ### Python -/

namespace Py

def config (settings : Settings) : AuthConfig :=
  ⟨settings.minutes, settings.days, settings.graceSeconds, fun payload => payload.user_id⟩

def Manager.pair (m : Manager) (pair : Option TokenPair) : Outcome :=
  match pair with
  | none => .refused
  | some pair =>
    .pair pair.refresh_token ((m.sessions.get pair.refresh_token).map fun x => (x.family_id, x.user_id))

def Manager.call (settings : Settings) (fresh : ℕ → Text) (m : Manager) : Call → Manager × Outcome
  | .createSession userId =>
    let (m, pair) := m.createSession (config settings) fresh userId
    (m, m.pair (some pair))
  | .refreshSession refreshToken =>
    let (m, pair) := m.refreshSession (config settings) fresh refreshToken
    (m, m.pair pair)
  | .revokeSession sessionId =>
    let (m, found) := m.revokeSession sessionId
    (m, .revoked found)
  | .revokeFamily familyId =>
    let (m, n) := m.revokeFamily familyId
    (m, .count n)
  | .revokeAllUserSessions userId exceptFamilyId =>
    let (m, n) := m.revokeAllUserSessions userId exceptFamilyId
    (m, .count n)
  | .getUserSessions userId =>
    (m, listed ((m.getUserSessions userId).map fun x => ⟨x.id, x.user_id, x.family_id, x.token⟩))
  | .cleanup => (m.cleanup, .done)
  | .wait seconds => ({ m with time := m.time + seconds }, .done)

def new (now : ℕ) : Manager := ⟨OMap.empty, now, 0⟩

end Py

end TypeFerry.Auth.Ports
