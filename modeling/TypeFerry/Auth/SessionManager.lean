import Mathlib.Data.Rat.Floor
import Mathlib.Tactic.Linarith
import TypeFerry.Lib.Numeral
import TypeFerry.Lib.OrderedMap
import TypeFerry.Lib.Runs

/-! # Sessions and the rotation of their refresh tokens

`InMemorySessionManager`: the map of sessions, the clock, and everything that can
be done to them. No operation is suspended before it is done, so each is one step.
What `uuid()` returns comes with the step and is new. A token that was rotated is
accepted once more within the grace period, and then the session that replaced it
is handed out, whatever has become of that. -/
namespace TypeFerry.Auth.SessionManager
open TypeFerry.Lib.Numeral TypeFerry.Lib.OrderedMap TypeFerry.Lib.Runs

/-! ## Sessions -/

structure Session where
  id : Text
  userId : Text
  familyId : Text
  token : Text
  /-- In seconds. -/
  expiration : ℚ
  isRevoked : Bool
  replacedBy : Option Text
  /-- In milliseconds. -/
  usedAt : Option ℕ
  deriving DecidableEq

structure AccessTokenPayload where
  userId : Text
  sessionId : Text
  iat : ℕ
  exp : ℚ
  deriving DecidableEq

structure TokenPair where
  accessToken : Text
  refreshToken : Text
  exp : ℚ
  deriving DecidableEq

structure AuthConfig where
  accessTokenExpiryMinutes : Option ℚ
  refreshTokenExpiryDays : Option ℚ
  rotationGracePeriodSeconds : Option ℚ
  /-- With the secret and the algorithm of the configuration. -/
  signAccessToken : AccessTokenPayload → Text

namespace AuthConfig

def expiryMinutes (config : AuthConfig) : ℚ := config.accessTokenExpiryMinutes.getD 15

def expiryDays (config : AuthConfig) : ℚ := config.refreshTokenExpiryDays.getD 14

def graceSeconds (config : AuthConfig) : ℚ := config.rotationGracePeriodSeconds.getD 15

end AuthConfig

namespace Session

/-- `Date.now() / 1000 > session.expiration`. -/
def isExpired (s : Session) (now : ℕ) : Bool := s.expiration < (now : ℚ) / 1000

/-- The token was rotated: `session.replacedBy` is there and not empty. -/
def isReplaced (s : Session) : Bool := s.replacedBy.any (· ≠ [])

/-- Reuse indicates theft. -/
def outsideGrace (config : AuthConfig) (s : Session) (now : ℕ) : Bool :=
  match s.usedAt with
  | none => true
  | some usedAt => usedAt = 0 || config.graceSeconds * 1000 < (now : ℚ) - usedAt

def revoke (s : Session) : Session := { s with isRevoked := true }

def replace (s : Session) (newToken : Text) (now : ℕ) : Session :=
  { s with replacedBy := some newToken, usedAt := some now }

end Session

/-! ## The manager -/

structure State where
  sessions : OMap Text Session
  /-- `Date.now()`. -/
  now : ℕ
  /-- What `uuid()` has returned so far. -/
  uuids : List Text
  /-- The sessions as they were issued. -/
  issued : List Session

def init (now : ℕ) : State := ⟨OMap.empty, now, [], []⟩

namespace State
variable (config : AuthConfig)

def expiration (s : State) : ℚ := (s.now / 1000 : ℕ) + config.expiryDays * 24 * 60 * 60

def buildTokenPair (s : State) (refreshToken userId sessionId : Text) : TokenPair :=
  let iat := s.now / 1000
  let exp := (iat : ℚ) + config.expiryMinutes * 60
  ⟨config.signAccessToken ⟨userId, sessionId, iat, exp⟩, refreshToken, exp⟩

/-- A session is issued. -/
def issue (s : State) (session : Session) : State :=
  { s with sessions := s.sessions.set session.token session, issued := session :: s.issued }

def createSession (s : State) (userId familyId token sessionId : Text) : State × TokenPair :=
  (s.issue ⟨sessionId, userId, familyId, token, s.expiration config, false, none, none⟩,
    s.buildTokenPair config token userId sessionId)

/-- The sessions that meet `p` are revoked, and those of them that were not are counted. -/
def revokeWhere (s : State) (p : Session → Bool) : State × ℕ :=
  ({ s with sessions := s.sessions.mapValues fun t => if p t && !t.isRevoked then t.revoke else t },
    (s.sessions.values.filter fun t => p t && !t.isRevoked).length)

def revokeFamily (s : State) (familyId : Text) : State × ℕ :=
  s.revokeWhere fun t => t.familyId = familyId

def revokeAllUserSessions (s : State) (userId : Text) (exceptFamilyId : Option Text) : State × ℕ :=
  s.revokeWhere fun t => t.userId = userId &&
    (!exceptFamilyId.any (· ≠ []) || some t.familyId ≠ exceptFamilyId)

def revokeSession (s : State) (sessionId : Text) : State × Bool :=
  ({ s with sessions := s.sessions.changeFirst (fun t => t.id = sessionId) Session.revoke },
    s.sessions.values.any fun t => t.id = sessionId)

def getUserSessions (s : State) (userId : Text) : List Session :=
  s.sessions.values.filter fun t =>
    t.userId = userId && !t.isRevoked && !t.isReplaced && (s.now : ℚ) / 1000 < t.expiration

def handleReusedToken (s : State) (session : Session) : State × Option TokenPair :=
  if session.outsideGrace config s.now then ((s.revokeFamily session.familyId).1, none)
  else (s, match session.replacedBy.bind s.sessions.get with
    | none => none
    | some next =>
      if next.isRevoked then none else some (s.buildTokenPair config next.token next.userId next.id))

/-- The session stands under its token. -/
def rotateSession (s : State) (session : Session) (newToken newSessionId : Text) :
    State × TokenPair :=
  ({ s with sessions := s.sessions.set session.token (session.replace newToken s.now) }.issue
      ⟨newSessionId, session.userId, session.familyId, newToken, s.expiration config, false, none, none⟩,
    s.buildTokenPair config newToken session.userId newSessionId)

def refreshSession (s : State) (refreshToken newToken newSessionId : Text) :
    State × Option TokenPair :=
  match s.sessions.get refreshToken with
  | none => (s, none)
  | some session =>
    if session.isRevoked then (s, none)
    else if session.isExpired s.now then (s, none)
    else if session.isReplaced then s.handleReusedToken config session
    else
      let (s', pair) := s.rotateSession config session newToken newSessionId
      (s', some pair)

def cleanup (s : State) : State :=
  { s with sessions := s.sessions.filterValues fun t =>
      !(t.isRevoked || t.expiration ≤ (s.now : ℚ) / 1000) }

def destroy (s : State) : State := { s with sessions := OMap.empty }

def advance (s : State) (ms : ℕ) : State := { s with now := s.now + ms }

end State

inductive Action where
  | createSession (userId familyId token sessionId : Text)
  | refreshSession (refreshToken newToken newSessionId : Text)
  | revokeSession (sessionId : Text)
  | revokeFamily (familyId : Text)
  | revokeAllUserSessions (userId : Text) (exceptFamilyId : Option Text)
  | cleanup
  | destroy
  | advance (ms : ℕ)

/-- What `uuid()` returns when it is called. -/
def Action.draws : Action → List Text
  | .createSession _ familyId token sessionId => [familyId, token, sessionId]
  | .refreshSession _ newToken newSessionId => [newToken, newSessionId]
  | _ => []

/-- Identifiers are not empty, and none comes twice. -/
def New (s : State) (ids : List Text) : Prop := ids.Nodup ∧ ∀ id ∈ ids, id ∉ s.uuids ∧ id ≠ []

instance (s : State) (ids : List Text) : Decidable (New s ids) :=
  inferInstanceAs (Decidable (ids.Nodup ∧ ∀ id ∈ ids, id ∉ s.uuids ∧ id ≠ []))

def State.act (config : AuthConfig) (s : State) : Action → State
  | .createSession userId familyId token sessionId =>
    (s.createSession config userId familyId token sessionId).1
  | .refreshSession refreshToken newToken newSessionId =>
    (s.refreshSession config refreshToken newToken newSessionId).1
  | .revokeSession sessionId => (s.revokeSession sessionId).1
  | .revokeFamily familyId => (s.revokeFamily familyId).1
  | .revokeAllUserSessions userId exceptFamilyId => (s.revokeAllUserSessions userId exceptFamilyId).1
  | .cleanup => s.cleanup
  | .destroy => s.destroy
  | .advance ms => s.advance ms

def step (config : AuthConfig) (s : State) (a : Action) : Option State :=
  if New s a.draws then some { s.act config a with uuids := a.draws ++ s.uuids } else none

def machine (config : AuthConfig) (now : ℕ) : Machine State Action := ⟨init now, step config⟩

/-! ## What the manager keeps -/

/-- No session comes, and none changes but to be revoked or deleted. -/
structure Thins (s s' : State) : Prop where
  now : s.now ≤ s'.now
  uuids : s'.uuids = s.uuids
  issued : s'.issued = s.issued
  get : ∀ {k x}, s'.sessions.get k = some x →
    ∃ y, s.sessions.get k = some y ∧ (x = y ∨ x = y.revoke)

/-- `x` is stored for the session that was issued as `t`. -/
structure Stands (t x : Session) : Prop where
  id : x.id = t.id
  userId : x.userId = t.userId
  familyId : x.familyId = t.familyId
  token : x.token = t.token
  expiration : x.expiration = t.expiration

structure Inv (config : AuthConfig) (s : State) : Prop where
  nonempty : [] ∉ s.uuids
  drawn : ∀ t ∈ s.issued, t.token ∈ s.uuids ∧ t.id ∈ s.uuids ∧ t.familyId ∈ s.uuids
  tokens : ∀ t ∈ s.issued, ∀ t' ∈ s.issued, t.token = t'.token → t = t'
  ids : ∀ t ∈ s.issued, ∀ t' ∈ s.issued, t.id = t'.id → t.token = t'.token
  owner : ∀ t ∈ s.issued, ∀ t' ∈ s.issued, t.familyId = t'.familyId → t.userId = t'.userId
  expires : ∀ t ∈ s.issued, t.expiration ≤ s.expiration config
  stored : ∀ {k x}, s.sessions.get k = some x → ∃ t ∈ s.issued, t.token = k ∧ Stands t x
  replaced : ∀ {k x b}, s.sessions.get k = some x → x.replacedBy = some b →
    ∃ t ∈ s.issued, t.token = b ∧ t.userId = x.userId ∧ t.familyId = x.familyId ∧
      x.expiration ≤ t.expiration

section
variable {config : AuthConfig} {s s' : State}

theorem Stands.revoke {t x : Session} (h : Stands t x) : Stands t x.revoke :=
  ⟨h.id, h.userId, h.familyId, h.token, h.expiration⟩

theorem expiration_mono (config : AuthConfig) (h : s.now ≤ s'.now) :
    s.expiration config ≤ s'.expiration config := by
  have hdiv : ((s.now / 1000 : ℕ) : ℚ) ≤ ((s'.now / 1000 : ℕ) : ℚ) :=
    Nat.cast_le.mpr (Nat.div_le_div_right h)
  unfold State.expiration
  linarith

theorem Inv.thins (h : Inv config s) (ht : Thins s s') : Inv config s' := by
  refine ⟨by rw [ht.uuids]; exact h.nonempty, by rw [ht.issued, ht.uuids]; exact h.drawn,
    by rw [ht.issued]; exact h.tokens, by rw [ht.issued]; exact h.ids,
    by rw [ht.issued]; exact h.owner, fun t hin => ?_, fun {k x} hx => ?_, fun {k x b} hx hb => ?_⟩
  · rw [ht.issued] at hin
    exact (h.expires t hin).trans (expiration_mono config ht.now)
  · rw [ht.issued]
    obtain ⟨y, hy, hxy⟩ := ht.get hx
    obtain ⟨t, hin, htoken, hstands⟩ := h.stored hy
    refine ⟨t, hin, htoken, ?_⟩
    rcases hxy with rfl | rfl
    · exact hstands
    · exact hstands.revoke
  · rw [ht.issued]
    obtain ⟨y, hy, hxy⟩ := ht.get hx
    rcases hxy with rfl | rfl
    · exact h.replaced hy hb
    · exact h.replaced (x := y) hy hb

/-- A session is issued, and the one that it replaces, if there is one, says so. -/
theorem Inv.issues (h : Inv config s) {n : Session} {ds : List Text} (hnow : s'.now = s.now)
    (huuids : s'.uuids = ds ++ s.uuids) (hissued : s'.issued = n :: s.issued) (hnew : New s ds)
    (htoken : n.token ∈ ds) (hid : n.id ∈ ds) (hfamily : n.familyId ∈ ds ++ s.uuids)
    (howner : ∀ t ∈ s.issued, t.familyId = n.familyId → t.userId = n.userId)
    (hexpires : n.expiration = s.expiration config) (hnone : n.replacedBy = none)
    (hget : ∀ {k x}, s'.sessions.get k = some x → k = n.token ∧ x = n ∨
      ∃ y, s.sessions.get k = some y ∧ (x = y ∨ ∃ at', y.userId = n.userId ∧ y.familyId = n.familyId ∧
        x = { y with replacedBy := some n.token, usedAt := at' })) : Inv config s' := by
  have hold : ∀ {t}, t ∈ s.issued → t.token ≠ n.token ∧ t.id ≠ n.id := by
    intro t ht
    obtain ⟨h₁, h₂, -⟩ := h.drawn t ht
    exact ⟨fun heq => (hnew.2 _ htoken).1 (heq ▸ h₁), fun heq => (hnew.2 _ hid).1 (heq ▸ h₂)⟩
  have hexp : s'.expiration config = s.expiration config := by
    rw [State.expiration, hnow]
    rfl
  have hmem : ∀ {t}, t ∈ s.issued → t ∈ s'.issued := fun ht => hissued ▸ List.mem_cons_of_mem _ ht
  have hhead : n ∈ s'.issued := hissued ▸ List.mem_cons_self ..
  refine ⟨?_, fun t ht => ?_, fun t ht t' ht' heq => ?_, fun t ht t' ht' heq => ?_,
    fun t ht t' ht' heq => ?_, fun t ht => ?_, fun {k x} hx => ?_, fun {k x b} hx hb => ?_⟩
  · rw [huuids]
    intro hin
    rcases List.mem_append.mp hin with hin | hin
    · exact (hnew.2 _ hin).2 rfl
    · exact h.nonempty hin
  · rw [huuids]
    rw [hissued] at ht
    rcases List.mem_cons.mp ht with rfl | ht
    · exact ⟨List.mem_append_left _ htoken, List.mem_append_left _ hid, hfamily⟩
    · obtain ⟨h₁, h₂, h₃⟩ := h.drawn t ht
      exact ⟨List.mem_append_right _ h₁, List.mem_append_right _ h₂, List.mem_append_right _ h₃⟩
  · rw [hissued] at ht ht'
    rcases List.mem_cons.mp ht with rfl | hin <;> rcases List.mem_cons.mp ht' with rfl | hin'
    · rfl
    · exact absurd heq.symm (hold hin').1
    · exact absurd heq (hold hin).1
    · exact h.tokens t hin t' hin' heq
  · rw [hissued] at ht ht'
    rcases List.mem_cons.mp ht with rfl | hin <;> rcases List.mem_cons.mp ht' with rfl | hin'
    · rfl
    · exact absurd heq.symm (hold hin').2
    · exact absurd heq (hold hin).2
    · exact h.ids t hin t' hin' heq
  · rw [hissued] at ht ht'
    rcases List.mem_cons.mp ht with rfl | hin <;> rcases List.mem_cons.mp ht' with rfl | hin'
    · rfl
    · exact (howner t' hin' heq.symm).symm
    · exact howner t hin heq
    · exact h.owner t hin t' hin' heq
  · rw [hexp]
    rw [hissued] at ht
    rcases List.mem_cons.mp ht with rfl | ht
    · exact hexpires.le
    · exact h.expires t ht
  · rcases hget hx with ⟨rfl, rfl⟩ | ⟨y, hy, rfl | ⟨_, -, -, rfl⟩⟩
    · exact ⟨x, hhead, rfl, rfl, rfl, rfl, rfl, rfl⟩
    · obtain ⟨t, ht, hk, hstands⟩ := h.stored hy
      exact ⟨t, hmem ht, hk, hstands⟩
    · obtain ⟨t, ht, hk, hstands⟩ := h.stored hy
      exact ⟨t, hmem ht, hk, hstands.id, hstands.userId, hstands.familyId, hstands.token,
        hstands.expiration⟩
  · rcases hget hx with ⟨rfl, rfl⟩ | ⟨y, hy, rfl | ⟨_, huser, hfam, rfl⟩⟩
    · rw [hnone] at hb
      cases hb
    · obtain ⟨t, ht, hrest⟩ := h.replaced hy hb
      exact ⟨t, hmem ht, hrest⟩
    · cases hb
      obtain ⟨t, ht, -, hstands⟩ := h.stored hy
      refine ⟨n, hhead, rfl, huser.symm, hfam.symm, ?_⟩
      rw [hexpires]
      exact hstands.expiration.trans_le (h.expires t ht)

end

/-! ## What an operation can do -/

/-- What `refreshSession` can do with a token. -/
inductive Refreshes (config : AuthConfig) (s : State) (token newToken newSessionId : Text) :
    State × Option TokenPair → Prop where
  | refused : Refreshes config s token newToken newSessionId (s, none)
  | theft (p : Session) (hp : s.sessions.get token = some p) (hrevoked : p.isRevoked = false)
      (hexpired : p.isExpired s.now = false) (hreplaced : p.isReplaced = true)
      (hgrace : p.outsideGrace config s.now = true) :
      Refreshes config s token newToken newSessionId ((s.revokeFamily p.familyId).1, none)
  | reused (p next : Session) (b : Text) (hp : s.sessions.get token = some p)
      (hrevoked : p.isRevoked = false) (hexpired : p.isExpired s.now = false)
      (hreplaced : p.replacedBy = some b) (hgrace : p.outsideGrace config s.now = false)
      (hnext : s.sessions.get b = some next) (hlive : next.isRevoked = false) :
      Refreshes config s token newToken newSessionId
        (s, some (s.buildTokenPair config next.token next.userId next.id))
  | rotated (p : Session) (hp : s.sessions.get token = some p) (hrevoked : p.isRevoked = false)
      (hexpired : p.isExpired s.now = false) (hreplaced : p.isReplaced = false) :
      Refreshes config s token newToken newSessionId
        ((s.rotateSession config p newToken newSessionId).1,
          some (s.rotateSession config p newToken newSessionId).2)

section
variable {config : AuthConfig} {s s' : State}

theorem refreshes (config : AuthConfig) (s : State) (token newToken newSessionId : Text) :
    Refreshes config s token newToken newSessionId
      (s.refreshSession config token newToken newSessionId) := by
  unfold State.refreshSession
  split
  · exact .refused
  · next p hp =>
    split
    · exact .refused
    · next hrevoked =>
      rw [Bool.not_eq_true] at hrevoked
      split
      · exact .refused
      · next hexpired =>
        rw [Bool.not_eq_true] at hexpired
        split
        · next hreplaced =>
          unfold State.handleReusedToken
          split
          · next hgrace => exact .theft p hp hrevoked hexpired hreplaced hgrace
          · next hgrace =>
            rw [Bool.not_eq_true] at hgrace
            split
            · exact .refused
            · next next hnext =>
              obtain ⟨b, hb, hget⟩ := Option.bind_eq_some_iff.mp hnext
              split
              · exact .refused
              · next hlive =>
                rw [Bool.not_eq_true] at hlive
                exact .reused p next b hp hrevoked hexpired hb hgrace hget hlive
        · next hreplaced =>
          rw [Bool.not_eq_true] at hreplaced
          exact .rotated p hp hrevoked hexpired hreplaced

theorem Thins.refl (s : State) : Thins s s := ⟨Nat.le_refl _, rfl, rfl, fun hx => ⟨_, hx, .inl rfl⟩⟩

theorem thins_revokeWhere (s : State) (p : Session → Bool) : Thins s (s.revokeWhere p).1 := by
  refine ⟨Nat.le_refl _, rfl, rfl, fun {k x} hx => ?_⟩
  rw [State.revokeWhere, OMap.get_mapValues] at hx
  obtain ⟨y, hy, rfl⟩ := Option.map_eq_some_iff.mp hx
  refine ⟨y, hy, ?_⟩
  split
  · exact .inr rfl
  · exact .inl rfl

/-- One session at most has an identifier. -/
theorem Inv.id_once (h : Inv config s) (id : Text) (k : Text) (x : Session) (k' : Text) (x' : Session)
    (hx : s.sessions.get k = some x) (hx' : s.sessions.get k' = some x')
    (hid : decide (x.id = id) = true) (hid' : decide (x'.id = id) = true) : k = k' := by
  rw [decide_eq_true_eq] at hid hid'
  obtain ⟨t, ht, rfl, hstands⟩ := h.stored hx
  obtain ⟨t', ht', rfl, hstands'⟩ := h.stored hx'
  refine h.ids t ht t' ht' ?_
  rw [← hstands.id, ← hstands'.id, hid, hid']

theorem get_revokeSession (h : Inv config s) (id k : Text) :
    (s.revokeSession id).1.sessions.get k =
      (s.sessions.get k).map fun t => if decide (t.id = id) = true then t.revoke else t :=
  OMap.get_changeFirst (h.id_once id) Session.revoke k

theorem thins_revokeSession (h : Inv config s) (id : Text) : Thins s (s.revokeSession id).1 := by
  refine ⟨Nat.le_refl _, rfl, rfl, fun {k x} hx => ?_⟩
  rw [get_revokeSession h] at hx
  obtain ⟨y, hy, rfl⟩ := Option.map_eq_some_iff.mp hx
  refine ⟨y, hy, ?_⟩
  split
  · exact .inr rfl
  · exact .inl rfl

theorem thins_cleanup (s : State) : Thins s s.cleanup := by
  refine ⟨Nat.le_refl _, rfl, rfl, fun {k x} hx => ?_⟩
  rw [State.cleanup, OMap.get_filterValues] at hx
  exact ⟨x, (Option.filter_eq_some_iff.mp hx).1, .inl rfl⟩

theorem thins_destroy (s : State) : Thins s s.destroy :=
  ⟨Nat.le_refl _, rfl, rfl, fun hx => by cases hx⟩

theorem thins_advance (s : State) (ms : ℕ) : Thins s (s.advance ms) :=
  ⟨Nat.le_add_right _ _, rfl, rfl, fun hx => ⟨_, hx, .inl rfl⟩⟩

/-- What is stored behind a rotation. -/
theorem get_rotateSession (s : State) (p : Session) (newToken newSessionId k : Text) :
    (s.rotateSession config p newToken newSessionId).1.sessions.get k =
      if k = newToken then some ⟨newSessionId, p.userId, p.familyId, newToken, s.expiration config, false,
        none, none⟩
      else if k = p.token then some (p.replace newToken s.now)
      else s.sessions.get k := by
  simp only [State.rotateSession, State.issue, OMap.get_set]

/-- An action issues a session, or none comes. -/
inductive Acts (config : AuthConfig) (s : State) (ds : List Text) (s' : State) : Prop where
  | thins (h : Thins s s')
  | creates (n : Session) (hs : s' = s.issue n) (htoken : n.token ∈ ds) (hid : n.id ∈ ds)
      (hfamily : n.familyId ∈ ds) (hexpires : n.expiration = s.expiration config)
      (hlive : n.isRevoked = false) (hnone : n.replacedBy = none)
  | rotates (k : Text) (p : Session) (newToken newSessionId : Text) (hp : s.sessions.get k = some p)
      (hrevoked : p.isRevoked = false)
      (hs : s' = (s.rotateSession config p newToken newSessionId).1) (htoken : newToken ∈ ds)
      (hid : newSessionId ∈ ds)

theorem acts (h : Inv config s) (a : Action) : Acts config s a.draws (s.act config a) := by
  cases a with
  | createSession userId familyId token sessionId =>
    exact .creates _ rfl (by simp [Action.draws]) (by simp [Action.draws]) (by simp [Action.draws])
      rfl rfl rfl
  | refreshSession token newToken newSessionId =>
    have hr := refreshes config s token newToken newSessionId
    simp only [State.act]
    generalize s.refreshSession config token newToken newSessionId = result at hr ⊢
    cases hr with
    | refused => exact .thins (.refl s)
    | theft p _ _ _ _ _ => exact .thins (thins_revokeWhere s _)
    | reused _ _ _ _ _ _ _ _ _ _ => exact .thins (.refl s)
    | rotated p hp hrevoked _ _ =>
      exact .rotates token p newToken newSessionId hp hrevoked rfl (by simp [Action.draws])
        (by simp [Action.draws])
  | revokeSession id => exact .thins (thins_revokeSession h id)
  | revokeFamily f => exact .thins (thins_revokeWhere s _)
  | revokeAllUserSessions u except => exact .thins (thins_revokeWhere s _)
  | cleanup => exact .thins (thins_cleanup s)
  | destroy => exact .thins (thins_destroy s)
  | advance ms => exact .thins (thins_advance s ms)

/-- More identifiers have been drawn. -/
theorem Inv.draws (h : Inv config s) {ds : List Text} (hnew : ∀ id ∈ ds, id ≠ []) :
    Inv config { s with uuids := ds ++ s.uuids } := by
  refine ⟨fun hin => ?_, fun t ht => ?_, h.tokens, h.ids, h.owner, h.expires, h.stored, h.replaced⟩
  · rcases List.mem_append.mp hin with hin | hin
    · exact hnew _ hin rfl
    · exact h.nonempty hin
  · obtain ⟨h₁, h₂, h₃⟩ := h.drawn t ht
    exact ⟨List.mem_append_right _ h₁, List.mem_append_right _ h₂, List.mem_append_right _ h₃⟩

/-- A session stands under its token. -/
theorem Inv.token (h : Inv config s) {k : Text} {x : Session} (hx : s.sessions.get k = some x) :
    x.token = k := by
  obtain ⟨t, -, rfl, hstands⟩ := h.stored hx
  exact hstands.token

theorem inv_step (h : Inv config s) {a : Action} (hs : step config s a = some s') : Inv config s' := by
  unfold step at hs
  split at hs
  · next hnew =>
    cases hs
    have hact := acts h a
    generalize s.act config a = s' at hact ⊢
    cases hact with
    | thins ht =>
      have h' := (h.thins ht).draws fun id hid => (hnew.2 id hid).2
      rw [ht.uuids] at h'
      exact h'
    | creates n hs htoken hid hfamily hexpires hlive hnone =>
      subst hs
      refine h.issues rfl rfl rfl hnew htoken hid (List.mem_append_left _ hfamily) (fun t ht heq => ?_)
        hexpires hnone fun {k x} hx => ?_
      · exact absurd (heq ▸ (h.drawn t ht).2.2) (hnew.2 _ hfamily).1
      · rw [State.issue, OMap.get_set] at hx
        split at hx
        · next hk => cases hx; exact .inl ⟨hk, rfl⟩
        · exact .inr ⟨x, hx, .inl rfl⟩
    | rotates k p newToken newSessionId hp hrevoked hs htoken hid =>
      subst hs
      obtain ⟨t, ht, hk, hstands⟩ := h.stored hp
      refine h.issues (n := ⟨newSessionId, p.userId, p.familyId, newToken, s.expiration config, false,
        none, none⟩) rfl rfl rfl hnew htoken hid ?_ (fun t' ht' heq => ?_) rfl rfl fun {k' x} hx => ?_
      · exact List.mem_append_right _ (hstands.familyId ▸ (h.drawn t ht).2.2)
      · exact (h.owner t' ht' t ht (heq.trans hstands.familyId)).trans hstands.userId.symm
      · dsimp only at hx
        rw [get_rotateSession] at hx
        split at hx
        · next hk' => cases hx; exact .inl ⟨hk', rfl⟩
        · split at hx
          · next hk' =>
            cases hx
            exact .inr ⟨p, by rw [hk', h.token hp]; exact hp, .inr ⟨some s.now, rfl, rfl, rfl⟩⟩
          · exact .inr ⟨x, hx, .inl rfl⟩
  · cases hs

theorem inv_init (config : AuthConfig) (now : ℕ) : Inv config (init now) :=
  ⟨fun h => (by cases h), fun t ht => (by cases ht), fun t ht => (by cases ht), fun t ht => (by cases ht),
    fun t ht => (by cases ht), fun t ht => (by cases ht), fun hx => (by cases hx),
    fun hx => (by cases hx)⟩

theorem inv_of_reach {now : ℕ} (h : (machine config now).Reach anyStep s) : Inv config s :=
  h.invariant (Inv config) (inv_init config now) fun _ _ _ hi _ hs => inv_step hi hs

end

/-! ## The tokens that are handed out -/

/-- The session `t` is live, and of the user and the family of `p`. -/
structure Live (s : State) (p t : Session) : Prop where
  stored : s.sessions.get t.token = some t
  unrevoked : t.isRevoked = false
  unexpired : t.isExpired s.now = false
  userId : t.userId = p.userId
  familyId : t.familyId = p.familyId
  unreplaced : t.isReplaced = false

/-- If the token of `t` comes next and before it expires, it is accepted, and no
session is revoked. -/
def AcceptedNext (config : AuthConfig) (s : State) (t : Session) : Prop :=
  ∀ ms newToken newSessionId, t.isExpired (s.now + ms) = false →
    ((s.advance ms).refreshSession config t.token newToken newSessionId).2.isSome = true ∧
    ∀ k x, ((s.advance ms).refreshSession config t.token newToken newSessionId).1.sessions.get k =
      some x → x.isRevoked = true → s.sessions.get k = some x

section
variable {config : AuthConfig} {s s' : State}

theorem Live.acceptedNext {p t : Session} (h : Live s p t) : AcceptedNext config s t := by
  intro ms newToken newSessionId hexpired
  have hrefresh : (s.advance ms).refreshSession config t.token newToken newSessionId =
      (((s.advance ms).rotateSession config t newToken newSessionId).1,
        some ((s.advance ms).rotateSession config t newToken newSessionId).2) := by
    have hget : (s.advance ms).sessions.get t.token = some t := h.stored
    have hexp : t.isExpired (s.advance ms).now = false := hexpired
    rw [State.refreshSession, hget]
    simp [h.unrevoked, h.unreplaced, hexp]
  rw [hrefresh]
  refine ⟨rfl, fun k x hx hrevoked => ?_⟩
  rw [get_rotateSession] at hx
  split at hx
  · cases hx
    cases hrevoked
  · split at hx
    · cases hx
      cases h.unrevoked.symm.trans hrevoked
    · exact hx

/-- A token that is not replaced names no other. -/
theorem Inv.replacedBy_none (h : Inv config s) {k : Text} {p : Session}
    (hp : s.sessions.get k = some p) (hno : p.isReplaced = false) : p.replacedBy = none := by
  cases hb : p.replacedBy with
  | none => rfl
  | some b =>
    obtain ⟨t, ht, rfl, -⟩ := h.replaced hp hb
    have hne : t.token ≠ [] := fun hnil => h.nonempty (hnil ▸ (h.drawn t ht).1)
    simp [Session.isReplaced, hb, hne] at hno

theorem unexpired_of_le {t p : Session} {now : ℕ} (hle : p.expiration ≤ t.expiration)
    (hp : p.isExpired now = false) : t.isExpired now = false := by
  simp only [Session.isExpired, decide_eq_false_iff_not, not_lt] at hp ⊢
  exact hp.trans hle

/-- The session that a token is replaced by. -/
theorem Inv.next (h : Inv config s) {k b : Text} {p next : Session} (hp : s.sessions.get k = some p)
    (hb : p.replacedBy = some b) (hnext : s.sessions.get b = some next) :
    next.userId = p.userId ∧ next.familyId = p.familyId ∧ p.expiration ≤ next.expiration := by
  obtain ⟨t, ht, rfl, huser, hfamily, hle⟩ := h.replaced hp hb
  obtain ⟨t', ht', htoken, hstands⟩ := h.stored hnext
  obtain rfl := h.tokens t' ht' t ht htoken
  exact ⟨hstands.userId.trans huser, hstands.familyId.trans hfamily, hstands.expiration ▸ hle⟩

/-- **Refresh hands out live tokens**, unless the token that replaced the presented
one has been replaced as well. In every run, whenever `refreshSession` returns a
pair, the session of the returned token is stored, live, of the same user and
family, and accepted when it comes next, if and only if the session that replaces
the presented one, where there is one, is not replaced itself. -/
theorem refresh_hands_out_live {now : ℕ} {token newToken newSessionId : Text} {pair : TokenPair}
    (h : (machine config now).Reach anyStep s)
    (hs : step config s (.refreshSession token newToken newSessionId) = some s')
    (hpair : (s.refreshSession config token newToken newSessionId).2 = some pair) :
    ∃ p, s.sessions.get token = some p ∧
      ((∃ t, t.token = pair.refreshToken ∧ Live s' p t ∧ AcceptedNext config s' t) ↔
        ∀ b next, p.replacedBy = some b → s.sessions.get b = some next → next.isReplaced = false) := by
  have hinv := inv_of_reach h
  unfold step at hs
  split at hs
  · cases hs
    have hr := refreshes config s token newToken newSessionId
    simp only [State.act]
    generalize s.refreshSession config token newToken newSessionId = result at hr hpair ⊢
    cases hr with
    | refused => cases hpair
    | theft _ _ _ _ _ _ => cases hpair
    | reused p next b hp hrevoked hexpired hreplaced hgrace hnext hlive =>
      cases hpair
      obtain ⟨huser, hfamily, hle⟩ := hinv.next hp hreplaced hnext
      have htoken : next.token = b := hinv.token hnext
      refine ⟨p, hp, fun hgiven c next' hc hnext' => ?_, fun hcond => ?_⟩
      · obtain ⟨t, ht, hl, -⟩ := hgiven
        rw [hreplaced, Option.some.injEq] at hc
        subst hc
        have hstored : s.sessions.get t.token = some t := hl.stored
        rw [show t.token = next.token from ht, htoken] at hstored
        rw [hstored, Option.some.injEq] at hnext'
        rw [← hnext']
        exact hl.unreplaced
      · have hl : Live { s with
            uuids := (Action.refreshSession token newToken newSessionId).draws ++ s.uuids } p next :=
          ⟨by rw [htoken]; exact hnext, hlive, unexpired_of_le hle hexpired, huser, hfamily,
            hcond b next hreplaced hnext⟩
        exact ⟨next, rfl, hl, hl.acceptedNext⟩
    | rotated p hp hrevoked hexpired hreplaced =>
      cases hpair
      refine ⟨p, hp, fun _ b next hb _ => ?_, fun _ => ?_⟩
      · rw [hinv.replacedBy_none hp hreplaced] at hb
        cases hb
      · obtain ⟨t, ht, -, hstands⟩ := hinv.stored hp
        have hle : p.expiration ≤ s.expiration config :=
          hstands.expiration.trans_le (hinv.expires t ht)
        have hl : Live { (s.rotateSession config p newToken newSessionId).1 with
            uuids := (Action.refreshSession token newToken newSessionId).draws ++ s.uuids } p
            ⟨newSessionId, p.userId, p.familyId, newToken, s.expiration config, false, none, none⟩ := by
          refine ⟨?_, rfl, unexpired_of_le hle hexpired, rfl, rfl, rfl⟩
          dsimp only
          rw [get_rotateSession, if_pos rfl]
        exact ⟨_, rfl, hl, hl.acceptedNext⟩
  · cases hs

end

/-! ### Two runs -/

def defaults : AuthConfig := ⟨none, none, none, fun payload => payload.userId⟩

/-- A session is created, and its token is rotated. -/
def rotatedOnce : List Action :=
  [.createSession (js "u") (js "f") (js "a") (js "1"), .advance 500,
    .refreshSession (js "a") (js "b") (js "2")]

/-- The first token is presented again within the grace period. -/
theorem refresh_hands_out_live_again : ∃ s s' pair p t,
    (machine defaults 1000).Reach anyStep s ∧
    step defaults s (.refreshSession (js "a") (js "c") (js "3")) = some s' ∧
    (s.refreshSession defaults (js "a") (js "c") (js "3")).2 = some pair ∧
    s.sessions.get (js "a") = some p ∧ p.isReplaced = true ∧ t.token = pair.refreshToken ∧ Live s' p t ∧
    AcceptedNext defaults s' t := by
  obtain ⟨s, hs, hP⟩ := (machine defaults 1000).exists_of_exec anyStep (init 1000) rotatedOnce
    (fun s => decide (New s [js "c", js "3"]) &&
      (s.refreshSession defaults (js "a") (js "c") (js "3")).2.isSome &&
      (s.sessions.get (js "a")).any fun p => p.replacedBy = some (js "b") &&
        (s.sessions.get (js "b")).all fun next => next.isReplaced = false) (by decide +kernel)
  simp only [Bool.and_eq_true, decide_eq_true_eq, Option.any_eq_true, Option.isSome_iff_exists,
    Option.all_eq_true] at hP
  obtain ⟨⟨hnew, pair, hpair⟩, p, hp, hb, hnext⟩ := hP
  obtain ⟨p', hp', hiff⟩ := refresh_hands_out_live hs (if_pos hnew) hpair
  rw [hp, Option.some.injEq] at hp'
  subst hp'
  obtain ⟨t, ht, hl, ha⟩ := hiff.mpr fun c next hc hget => by
    rw [hb, Option.some.injEq] at hc
    subst hc
    exact hnext next hget
  exact ⟨s, _, pair, p, t, hs, if_pos hnew, hpair, hp, by rw [Session.isReplaced, hb]; rfl, ht, hl, ha⟩

/-- Both tokens are rotated within the grace period of the first. When that is
presented again, the second one is handed out. -/
theorem refresh_hands_out_replaced : ¬ ∀ (config : AuthConfig) (now : ℕ) (s s' : State)
    (token newToken newSessionId : Text) (pair : TokenPair) (p : Session),
    (machine config now).Reach anyStep s →
    step config s (.refreshSession token newToken newSessionId) = some s' →
    (s.refreshSession config token newToken newSessionId).2 = some pair →
    s.sessions.get token = some p →
    ∃ t, t.token = pair.refreshToken ∧ Live s' p t ∧ AcceptedNext config s' t := by
  intro h
  obtain ⟨s, hs, hP⟩ := (machine defaults 1000).exists_of_exec anyStep (init 1000)
    (rotatedOnce ++ [.refreshSession (js "b") (js "c") (js "3")])
    (fun s => decide (New s [js "d", js "4"]) &&
      (s.refreshSession defaults (js "a") (js "d") (js "4")).2.any fun pair =>
        (s.sessions.get (js "a")).isSome &&
        ((s.refreshSession defaults (js "a") (js "d") (js "4")).1.sessions.get
          pair.refreshToken).all fun t => t.isReplaced) (by decide +kernel)
  simp only [Bool.and_eq_true, decide_eq_true_eq, Option.any_eq_true, Option.isSome_iff_exists,
    Option.all_eq_true] at hP
  obtain ⟨hnew, pair, hpair, ⟨p, hp⟩, hall⟩ := hP
  obtain ⟨t, ht, hl, -⟩ := h defaults 1000 s _ (js "a") (js "d") (js "4") pair p hs (if_pos hnew) hpair hp
  have hreplaced := hall t (ht ▸ hl.stored)
  rw [hl.unreplaced] at hreplaced
  cases hreplaced

end TypeFerry.Auth.SessionManager
