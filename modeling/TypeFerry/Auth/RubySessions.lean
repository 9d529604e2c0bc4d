import TypeFerry.Auth.PortEquivalence

/-! # The session manager in Ruby

`session_manager.rb` answers every call as the manager in TypeScript does. Its clock is a float of seconds, which is
taken in whole seconds here, as the calls are. -/
namespace TypeFerry.Auth.RubySessions
open TypeFerry.Lib.Numeral TypeFerry.Lib.OrderedMap TypeFerry.Lib.Runs TypeFerry.Auth.Ports
open TypeFerry.Auth.PortEquivalence

structure Session where
  id : Text
  user_id : Text
  family_id : Text
  token : Text
  /-- In seconds. -/
  expiration : ℤ
  is_revoked : Bool
  replaced_by : Option Text
  /-- In milliseconds. -/
  used_at : Option ℤ
  deriving DecidableEq

structure AccessTokenPayload where
  user_id : Text
  session_id : Text
  iat : ℤ
  exp : ℤ

structure TokenPair where
  access_token : Text
  refresh_token : Text
  exp : ℤ

structure Config where
  access_token_expiry_minutes : ℤ
  refresh_token_expiry_days : ℤ
  rotation_grace_period_seconds : ℤ
  sign_access_token : AccessTokenPayload → Text

structure Manager where
  sessions : OMap Text Session
  /-- `@clock.call`, in whole seconds -/
  clock : ℤ
  /-- the number of identifiers that were drawn -/
  drawn : ℕ

namespace Manager
variable (config : Config) (fresh : ℕ → Text)

def buildSession (m : Manager) (id user_id family_id token : Text) : Session :=
  ⟨id, user_id, family_id, token, m.clock + config.refresh_token_expiry_days * 86400, false, none, none⟩

def buildTokenPair (m : Manager) (refresh_token user_id session_id : Text) : TokenPair :=
  let expiration := m.clock + config.access_token_expiry_minutes * 60
  ⟨config.sign_access_token ⟨user_id, session_id, m.clock, expiration⟩, refresh_token, expiration⟩

def createSession (m : Manager) (user_id : Text) : Manager × TokenPair :=
  let family_id := fresh m.drawn
  let token := fresh (m.drawn + 1)
  let session_id := fresh (m.drawn + 2)
  let session := m.buildSession config session_id user_id family_id token
  let m := { m with sessions := m.sessions.set token session, drawn := m.drawn + 3 }
  (m, m.buildTokenPair config token user_id session_id)

/-- `selected.each { |session| session.is_revoked = true }`, and `selected.length`. -/
def revokeSelected (m : Manager) (p : Session → Bool) : Manager × ℕ :=
  ({ m with sessions := m.sessions.mapValues fun t => if p t && !t.is_revoked then { t with is_revoked := true } else t },
    (m.sessions.values.filter fun t => p t && !t.is_revoked).length)

def revokeFamily (m : Manager) (family_id : Text) : Manager × ℕ := m.revokeSelected fun t => t.family_id = family_id

/-- The session is the object under its token, which is changed after the new one is there. -/
def rotate (m : Manager) (session : Session) : Manager × TokenPair :=
  let token := fresh m.drawn
  let session_id := fresh (m.drawn + 1)
  let sessions := m.sessions.set token (m.buildSession config session_id session.user_id session.family_id token)
  let session := { session with replaced_by := some token, used_at := some (m.clock * 1000) }
  let m := { m with sessions := sessions.set session.token session, drawn := m.drawn + 2 }
  (m, m.buildTokenPair config token session.user_id session_id)

def reusedToken (m : Manager) (session : Session) : Manager × Option TokenPair :=
  if session.used_at.all fun used_at => config.rotation_grace_period_seconds * 1000 < m.clock * 1000 - used_at then
    ((m.revokeFamily session.family_id).1, none)
  else
    let replacement := session.replaced_by.bind m.sessions.get
    (m, (replacement.filter fun t => !t.is_revoked).map fun t => m.buildTokenPair config t.token t.user_id t.id)

def refreshSession (m : Manager) (refresh_token : Text) : Manager × Option TokenPair :=
  match m.sessions.get refresh_token with
  | none => (m, none)
  | some session =>
    if !(!session.is_revoked && m.clock ≤ session.expiration) then (m, none)
    else if session.replaced_by.isSome then m.reusedToken config session
    else
      let (m, pair) := m.rotate config fresh session
      (m, some pair)

def revokeSession (m : Manager) (session_id : Text) : Manager × Bool :=
  let sessions := m.sessions.changeFirst (fun t => t.id = session_id) fun t => { t with is_revoked := true }
  ({ m with sessions }, m.sessions.values.any fun t => t.id = session_id)

def userSessions (m : Manager) (user_id : Text) : List Session :=
  m.sessions.values.filter fun t =>
    t.user_id = user_id && !t.is_revoked && !t.replaced_by.isSome && m.clock < t.expiration

def revokeAllUserSessions (m : Manager) (user_id : Text) (except_family_id : Option Text) : Manager × ℕ :=
  m.revokeSelected fun t => t.user_id = user_id && decide (some t.family_id ≠ except_family_id)

def cleanup (m : Manager) : Manager :=
  { m with sessions := m.sessions.filterValues fun t => !(t.is_revoked || t.expiration ≤ m.clock) }

end Manager

def config (settings : Settings) : Config :=
  ⟨settings.minutes, settings.days, settings.graceSeconds, fun payload => payload.user_id⟩

def Manager.pair (m : Manager) : Option TokenPair → Outcome
  | none => .refused
  | some pair =>
    .pair pair.refresh_token ((m.sessions.get pair.refresh_token).map fun x => (x.family_id, x.user_id))

def Manager.call (settings : Settings) (fresh : ℕ → Text) (m : Manager) : Call → Manager × Outcome
  | .createSession userId =>
    let (m, pair) := m.createSession (config settings) fresh userId
    (m, m.pair (some pair))
  | .refreshSession refreshToken =>
    let (m, pair) := m.refreshSession (config settings) fresh refreshToken
    (m, m.pair pair)
  | .revokeSession sessionId =>
    let (m, found) := m.revokeSession sessionId
    (m, .revoked found)
  | .revokeFamily familyId =>
    let (m, n) := m.revokeFamily familyId
    (m, .count n)
  | .revokeAllUserSessions userId exceptFamilyId =>
    let (m, n) := m.revokeAllUserSessions userId exceptFamilyId
    (m, .count n)
  | .getUserSessions userId =>
    (m, listed ((m.userSessions userId).map fun x => ⟨x.id, x.user_id, x.family_id, x.token⟩))
  | .cleanup => (m.cleanup, .done)
  | .wait seconds => ({ m with clock := m.clock + seconds }, .done)

def new (now : ℕ) : Manager := ⟨OMap.empty, now, 0⟩

/-! ## It implements the manager -/

def image (x : Spec.Session) : Session :=
  ⟨x.id, x.userId, x.familyId, x.token, x.expiration, x.revoked, x.rotated.map Prod.fst,
    x.rotated.map fun r => (r.2 : ℤ) * 1000⟩

structure Implements (s : Spec.Manager) (m : Manager) : Prop where
  sessions : OMap.Image image s.sessions m.sessions
  clock : m.clock = s.now
  drawn : m.drawn = s.drawn

section
variable {settings : Settings} {fresh : ℕ → Text} {s : Spec.Manager} {m : Manager}

theorem Implements.revokeSelected (h : Implements s m) {p : Spec.Session → Bool} {q : Session → Bool}
    (hp : ∀ x ∈ s.sessions.values, q (image x) = p x) :
    Implements (s.revokeWhere p) (m.revokeSelected q).1 ∧ (m.revokeSelected q).2 = s.count p := by
  have hp' : ∀ x ∈ s.sessions.values, (q (image x) && !(image x).is_revoked) = (p x && !x.revoked) := by
    intro x hx
    rw [hp x hx]
    rfl
  refine ⟨⟨h.sessions.mapValues fun x hx => ?_, h.clock, h.drawn⟩, ?_⟩
  · rw [hp' x hx]
    split <;> rfl
  · exact (h.sessions.filter_perm hp').length_eq.trans (List.length_map _)

theorem Implements.granted (h : Implements s m) {x : Spec.Session} (hx : s.sessions.get x.token = some x)
    (exp : ℤ) (access_token : Text) : m.pair (some ⟨access_token, x.token, exp⟩) = x.granted := by
  rw [Manager.pair, h.sessions x.token, hx]
  rfl

theorem Implements.reuse (hinv : Inv fresh s) (h : Implements s m) {x : Spec.Session} {next : Text} {used : ℕ}
    (hr : x.rotated = some (next, used)) :
    let r := m.reusedToken (config settings) (image x)
    Implements (s.reuse settings x next used).1 r.1 ∧ r.1.pair r.2 = (s.reuse settings x next used).2 := by
  have hreuse : ((image x).used_at.all fun used_at =>
      decide ((config settings).rotation_grace_period_seconds * 1000 < m.clock * 1000 - used_at)) = true ↔
      settings.graceSeconds < (s.now : ℤ) - used := by
    have hused : (image x).used_at = some ((used : ℤ) * 1000) := by
      rw [image, hr]
      rfl
    rw [hused, Option.all_some, decide_eq_true_eq, h.clock]
    show settings.graceSeconds * 1000 < _ ↔ _
    omega
  rw [Manager.reusedToken, Spec.Manager.reuse]
  by_cases hgrace : settings.graceSeconds < (s.now : ℤ) - used
  · rw [if_pos (hreuse.mpr hgrace), if_pos hgrace]
    exact ⟨(h.revokeSelected (p := fun y => y.familyId = x.familyId) fun y _ => rfl).1, rfl⟩
  · have hnext : (image x).replaced_by = some next := by
      rw [image, hr]
      rfl
    rw [if_neg (mt hreuse.mp hgrace), if_neg hgrace, hnext, Option.bind_some, h.sessions next]
    refine ⟨h, ?_⟩
    cases hy : s.sessions.get next with
    | none => rfl
    | some y =>
      obtain rfl := (hinv.sound hy).token
      cases hrev : y.revoked with
      | true =>
        have hnone : ((some (image y)).filter fun t => !t.is_revoked) = none := by
          rw [Option.filter_some_neg]
          simp [image, hrev]
        show m.pair (((some (image y)).filter fun t => !t.is_revoked).map _) = if y.revoked then _ else _
        rw [hnone, if_pos hrev]
        rfl
      | false =>
        have hsome : ((some (image y)).filter fun t => !t.is_revoked) = some (image y) := by
          rw [Option.filter_some_pos]
          simp [image, hrev]
        show m.pair (((some (image y)).filter fun t => !t.is_revoked).map _) = if y.revoked then _ else _
        rw [hsome, if_neg (hrev ▸ Bool.false_ne_true)]
        exact h.granted hy _ _

/-- The object of the rotated session is changed last. -/
theorem Implements.rotate (hfresh : Fresh fresh) (hinv : Inv fresh s) (h : Implements s m) {k : Text}
    {x : Spec.Session} (hx : s.sessions.get k = some x) :
    let r := m.rotate (config settings) fresh (image x)
    Implements (s.rotate settings fresh x).1 r.1 ∧ r.1.pair (some r.2) = (s.rotate settings fresh x).2 := by
  obtain ⟨sessions, clock, drawn⟩ := m
  obtain ⟨hsessions, rfl, rfl⟩ := h
  have htoken := (hinv.sound hx).token
  have hne : fresh s.drawn ≠ x.token := htoken ▸ ((hinv.sound hx).not_next hfresh le_rfl).symm
  intro r
  have hrotated : Implements (s.rotate settings fresh x).1 r.1 := by
    refine ⟨OMap.Image.set_comm hne ?_, rfl, rfl⟩
    exact (hsessions.set (fresh s.drawn) (s.issued settings fresh x.userId x.familyId)).set x.token
      { x with rotated := some (fresh s.drawn, s.now) }
  exact ⟨hrotated, hrotated.granted (OMap.get_set_self ..) _ _⟩

theorem Implements.refresh (hfresh : Fresh fresh) (hinv : Inv fresh s) (h : Implements s m) (token : Text) :
    Implements (s.refresh settings fresh token).1 (m.call settings fresh (.refreshSession token)).1 ∧
      (m.call settings fresh (.refreshSession token)).2 = (s.refresh settings fresh token).2 := by
  rw [Manager.call, Manager.refreshSession, Spec.Manager.refresh, h.sessions token]
  cases hx : s.sessions.get token with
  | none => exact ⟨h, rfl⟩
  | some x =>
    have hdead : (!(!(image x).is_revoked && decide (m.clock ≤ (image x).expiration))) = true ↔
        x.revoked = true ∨ x.expiration < s.now := by
      rw [h.clock, Bool.not_eq_true', Bool.and_eq_false_iff, decide_eq_false_iff_not, not_le, Bool.not_eq_false']
      rfl
    dsimp only [Option.map_some]
    by_cases hlive : x.revoked = true ∨ x.expiration < s.now
    · rw [if_pos (hdead.mpr hlive), if_pos hlive]
      exact ⟨h, rfl⟩
    · rw [if_neg (mt hdead.mp hlive), if_neg hlive]
      cases hr : x.rotated with
      | none =>
        rw [if_neg (by simp [image, hr])]
        exact h.rotate hfresh hinv hx
      | some r =>
        rw [if_pos (by simp [image, hr])]
        exact h.reuse hinv hr

theorem Implements.call (hfresh : Fresh fresh) (hinv : Inv fresh s) (h : Implements s m) (c : Call) :
    Implements (s.call settings fresh c).1 (m.call settings fresh c).1 ∧
      (m.call settings fresh c).2 = (s.call settings fresh c).2 := by
  cases c with
  | createSession userId =>
    obtain ⟨sessions, clock, drawn⟩ := m
    obtain ⟨hsessions, rfl, rfl⟩ := h
    have himp : Implements (s.call settings fresh (.createSession userId)).1
        (Manager.call settings fresh ⟨sessions, s.now, s.drawn⟩ (.createSession userId)).1 :=
      ⟨hsessions.set (fresh (s.drawn + 1))
        (Spec.Manager.issued settings fresh { s with drawn := s.drawn + 1 } userId (fresh s.drawn)), rfl, rfl⟩
    exact ⟨himp, himp.granted (OMap.get_set_self ..) _ _⟩
  | refreshSession token => exact h.refresh hfresh hinv token
  | revokeSession id =>
    refine ⟨⟨?_, h.clock, h.drawn⟩, congrArg Outcome.revoked (h.sessions.any_values fun x _ => rfl)⟩
    have himage := h.sessions.changeFirst (p := fun x => decide (x.id = id)) (g := Spec.Session.revoke)
      (q := fun x => decide (x.id = id)) (u := fun x => { x with is_revoked := true })
      (fun x => rfl) (fun x => rfl)
      fun k v k' v' hv hv' hp hp' => hinv.once hfresh id hv hv' (of_decide_eq_true hp) (of_decide_eq_true hp')
    simp only [decide_eq_true_eq] at himage
    exact himage
  | revokeFamily familyId =>
    obtain ⟨himp, hcount⟩ := h.revokeSelected (p := fun x => x.familyId = familyId)
      (q := fun x => x.family_id = familyId) fun x _ => rfl
    exact ⟨himp, congrArg Outcome.count hcount⟩
  | revokeAllUserSessions userId except =>
    obtain ⟨himp, hcount⟩ := h.revokeSelected
      (p := fun x => x.userId = userId && except.all (x.familyId ≠ ·))
      (q := fun x => x.user_id = userId && decide (some x.family_id ≠ except)) fun x _ => by
        cases except with
        | none => rfl
        | some family => exact congrArg (decide _ && ·) (decide_eq_decide.mpr Option.some_inj.not)
    exact ⟨himp, congrArg Outcome.count hcount⟩
  | getUserSessions userId =>
    refine ⟨h, congrArg Outcome.sessions (Quotient.sound ?_)⟩
    have hperm := h.sessions.filter_perm (p := fun x => x.userId = userId && x.live s.now)
      (q := fun x => x.user_id = userId && !x.is_revoked && !x.replaced_by.isSome && m.clock < x.expiration)
      fun x _ => by
        have hreplaced : (!(image x).replaced_by.isSome) = x.rotated.isNone := by
          rw [image, Option.isSome_map, Option.not_isSome]
        rw [hreplaced, h.clock, Spec.Session.live, ← Bool.and_assoc, ← Bool.and_assoc]
        rfl
    have hlisted := hperm.map fun x => Listed.mk x.id x.user_id x.family_id x.token
    rw [List.map_map] at hlisted
    exact hlisted
  | cleanup =>
    refine ⟨⟨h.sessions.filterValues fun x _ => ?_, h.clock, h.drawn⟩, rfl⟩
    rw [h.clock]
    rfl
  | wait seconds =>
    refine ⟨⟨h.sessions, ?_, h.drawn⟩, rfl⟩
    show m.clock + seconds = ((s.now + seconds : ℕ) : ℤ)
    rw [h.clock, Nat.cast_add]

end

/-! ## It answers as the manager in TypeScript does -/

end TypeFerry.Auth.RubySessions
