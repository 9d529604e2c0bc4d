import TypeFerry.Auth.Ports

/-! # The session managers answer alike

One manager is described in whole seconds, with what was rotated as a pair of the new token
and the time. Each of the three managers has, under every key, the image of what that one
has there, and answers every call as it does. -/
namespace TypeFerry.Auth.PortEquivalence
open TypeFerry.Lib.Numeral TypeFerry.Lib.OrderedMap TypeFerry.Lib.Runs TypeFerry.Auth.Ports

/-! ## The manager that is implemented -/

namespace Spec

structure Session where
  id : Text
  userId : Text
  familyId : Text
  token : Text
  expiration : ℤ
  revoked : Bool
  /-- The token that replaced this one, and when it did. -/
  rotated : Option (Text × ℕ)
  deriving DecidableEq

structure Manager where
  sessions : OMap Text Session
  now : ℕ
  drawn : ℕ

def Session.revoke (x : Session) : Session := { x with revoked := true }

def Session.listed (x : Session) : Listed := ⟨x.id, x.userId, x.familyId, x.token⟩

def Session.live (x : Session) (now : ℕ) : Bool := !x.revoked && x.rotated.isNone && (now : ℤ) < x.expiration

def Session.granted (x : Session) : Outcome := .pair x.token (some (x.familyId, x.userId))

namespace Manager
variable (settings : Settings) (fresh : ℕ → Text)

/-- A session with the next two identifiers. -/
def issued (m : Manager) (userId familyId : Text) : Session :=
  ⟨fresh (m.drawn + 1), userId, familyId, fresh m.drawn, m.now + settings.days * 86400, false, none⟩

def store (m : Manager) (x : Session) : Manager := { m with sessions := m.sessions.set x.token x }

def issue (m : Manager) (userId familyId : Text) : Manager × Outcome :=
  let x := m.issued settings fresh userId familyId
  ({ m.store x with drawn := m.drawn + 2 }, x.granted)

def revokeWhere (m : Manager) (p : Session → Bool) : Manager :=
  { m with sessions := m.sessions.mapValues fun x => if p x && !x.revoked then x.revoke else x }

def count (m : Manager) (p : Session → Bool) : ℕ := (m.sessions.values.filter fun x => p x && !x.revoked).length

/-- A token that was rotated is presented again. -/
def reuse (m : Manager) (x : Session) (next : Text) (used : ℕ) : Manager × Outcome :=
  if settings.graceSeconds < (m.now : ℤ) - used then (m.revokeWhere fun y => y.familyId = x.familyId, .refused)
  else (m, match m.sessions.get next with
    | none => .refused
    | some y => if y.revoked then .refused else y.granted)

def rotate (m : Manager) (x : Session) : Manager × Outcome :=
  (m.store { x with rotated := some (fresh m.drawn, m.now) }).issue settings fresh x.userId x.familyId

def refresh (m : Manager) (token : Text) : Manager × Outcome :=
  match m.sessions.get token with
  | none => (m, .refused)
  | some x =>
    if x.revoked ∨ x.expiration < m.now then (m, .refused)
    else match x.rotated with
      | some (next, used) => m.reuse settings x next used
      | none => m.rotate settings fresh x

def call (m : Manager) : Call → Manager × Outcome
  | .createSession userId => { m with drawn := m.drawn + 1 }.issue settings fresh userId (fresh m.drawn)
  | .refreshSession token => m.refresh settings fresh token
  | .revokeSession id =>
    ({ m with sessions := m.sessions.mapValues fun x => if x.id = id then x.revoke else x },
      .revoked (m.sessions.values.any fun x => x.id = id))
  | .revokeFamily familyId =>
    (m.revokeWhere fun x => x.familyId = familyId, .count (m.count fun x => x.familyId = familyId))
  | .revokeAllUserSessions userId except =>
    (m.revokeWhere fun x => x.userId = userId && except.all (x.familyId ≠ ·),
      .count (m.count fun x => x.userId = userId && except.all (x.familyId ≠ ·)))
  | .getUserSessions userId =>
    (m, listed ((m.sessions.values.filter fun x => x.userId = userId && x.live m.now).map Session.listed))
  | .cleanup =>
    ({ m with sessions := m.sessions.filterValues fun x => !(x.revoked || x.expiration ≤ m.now) }, .done)
  | .wait seconds => ({ m with now := m.now + seconds }, .done)

end Manager

def new (now : ℕ) : Manager := ⟨OMap.empty, now, 0⟩

end Spec

/-! ## What it keeps -/

/-- `x` is under `k`: its token was drawn, and its identifier next. -/
structure Sound (fresh : ℕ → Text) (drawn : ℕ) (k : Text) (x : Spec.Session) : Prop where
  place : ∃ i, i + 1 < drawn ∧ k = fresh i ∧ x.token = fresh i ∧ x.id = fresh (i + 1)
  family : x.familyId ≠ []
  rotated : ∀ r ∈ x.rotated, r.1 ≠ [] ∧ 0 < r.2

structure Inv (fresh : ℕ → Text) (m : Spec.Manager) : Prop where
  now : 0 < m.now
  sound : ∀ {k x}, m.sessions.get k = some x → Sound fresh m.drawn k x

/-- What is drawn is not empty, and nothing is drawn twice. -/
structure Fresh (fresh : ℕ → Text) : Prop where
  injective : Function.Injective fresh
  nonempty : ∀ i, fresh i ≠ []

section
variable {settings : Settings} {fresh : ℕ → Text} {m : Spec.Manager} {k k' : Text} {x y : Spec.Session}

theorem Sound.mono {d d' : ℕ} (h : Sound fresh d k x) (hle : d ≤ d') : Sound fresh d' k x := by
  obtain ⟨i, hi, hrest⟩ := h.place
  exact ⟨⟨i, by omega, hrest⟩, h.family, h.rotated⟩

theorem Sound.revoke {d : ℕ} (h : Sound fresh d k x) : Sound fresh d k x.revoke :=
  ⟨h.place, h.family, h.rotated⟩

theorem Sound.token {d : ℕ} (h : Sound fresh d k x) : x.token = k := by
  obtain ⟨i, -, rfl, htoken, -⟩ := h.place
  exact htoken

theorem Sound.not_next {d : ℕ} (hfresh : Fresh fresh) (h : Sound fresh d k x) {n : ℕ} (hn : d ≤ n) :
    k ≠ fresh n := by
  obtain ⟨i, hi, rfl, -⟩ := h.place
  intro heq
  have := hfresh.injective heq
  omega

/-- No two sessions have one identifier. -/
theorem Inv.once (hfresh : Fresh fresh) (h : Inv fresh m) (id : Text) (hx : m.sessions.get k = some x)
    (hy : m.sessions.get k' = some y) (hxid : x.id = id) (hyid : y.id = id) : k = k' := by
  obtain ⟨i, -, rfl, -, hi⟩ := (h.sound hx).place
  obtain ⟨j, -, rfl, -, hj⟩ := (h.sound hy).place
  have heq : fresh (i + 1) = fresh (j + 1) := by rw [← hi, ← hj, hxid, hyid]
  have := hfresh.injective heq
  rw [show i = j by omega]

/-- No family is the empty text. -/
theorem Inv.excepts (h : Inv fresh m) (hx : x ∈ m.sessions.values) (except : Option Text) :
    (!except.any (· ≠ []) || decide (some x.familyId ≠ except)) = except.all (x.familyId ≠ ·) := by
  obtain ⟨k, hk⟩ := OMap.mem_values.mp hx
  have hfamily := (h.sound hk).family
  cases except with
  | none => rfl
  | some f => by_cases hf : f = [] <;> simp [hf, hfamily]

theorem Inv.draw (h : Inv fresh m) (n : ℕ) : Inv fresh { m with drawn := m.drawn + n } :=
  ⟨h.now, fun hx => (h.sound hx).mono (Nat.le_add_right ..)⟩

theorem Inv.store (h : Inv fresh m) (hx : Sound fresh m.drawn x.token x) : Inv fresh (m.store x) := by
  refine ⟨h.now, fun {k y} hy => ?_⟩
  rw [Spec.Manager.store, OMap.get_set] at hy
  split at hy
  · next hk =>
    obtain rfl := Option.some.inj hy
    exact hk ▸ hx
  · exact h.sound hy

theorem Inv.issue (h : Inv fresh m) (userId : Text) {familyId : Text} (hfamily : familyId ≠ []) : Inv fresh (m.issue settings fresh userId familyId).1 := by
  refine Inv.store (m := { m with drawn := m.drawn + 2 }) (h.draw 2) ⟨⟨m.drawn, ?_, rfl, rfl, rfl⟩, hfamily, ?_⟩
  · show m.drawn + 1 < m.drawn + 2
    omega
  · intro r hr
    cases hr

theorem Inv.mapValues (h : Inv fresh m) {f : Spec.Session → Spec.Session} (hf : ∀ x, f x = x ∨ f x = x.revoke) :
    Inv fresh { m with sessions := m.sessions.mapValues f } := by
  refine ⟨h.now, fun {k y} hy => ?_⟩
  rw [OMap.get_mapValues, Option.map_eq_some_iff] at hy
  obtain ⟨x, hx, rfl⟩ := hy
  rcases hf x with heq | heq <;> rw [heq]
  · exact h.sound hx
  · exact (h.sound hx).revoke

theorem Inv.revokeWhere (h : Inv fresh m) (p : Spec.Session → Bool) : Inv fresh (m.revokeWhere p) := by
  refine h.mapValues fun x => ?_
  split
  · exact .inr rfl
  · exact .inl rfl

/-- A session that is rotated stays under its token. -/
theorem Inv.rotated (hfresh : Fresh fresh) (h : Inv fresh m) (hx : m.sessions.get k = some x) :
    Inv fresh (m.store { x with rotated := some (fresh m.drawn, m.now) }) := by
  obtain ⟨⟨i, hi, -, htoken, hid⟩, hfamily, -⟩ := h.sound hx
  refine h.store ⟨⟨i, hi, htoken, htoken, hid⟩, hfamily, ?_⟩
  intro r hr
  obtain rfl := Option.some.inj hr
  exact ⟨hfresh.nonempty _, h.now⟩

theorem Inv.refresh (hfresh : Fresh fresh) (h : Inv fresh m) (token : Text) :
    Inv fresh (m.refresh settings fresh token).1 := by
  rw [Spec.Manager.refresh]
  cases hx : m.sessions.get token with
  | none => exact h
  | some x =>
    dsimp only
    split
    · exact h
    · cases x.rotated with
      | none => exact (h.rotated hfresh hx).issue _ (h.sound hx).family
      | some r =>
        dsimp only [Spec.Manager.reuse]
        split
        · exact h.revokeWhere _
        · exact h

theorem Inv.call (hfresh : Fresh fresh) (h : Inv fresh m) (c : Call) : Inv fresh (m.call settings fresh c).1 := by
  cases c with
  | createSession userId => exact (h.draw 1).issue userId (hfresh.nonempty _)
  | refreshSession token => exact h.refresh hfresh token
  | revokeSession id =>
    refine h.mapValues fun x => ?_
    split
    · exact .inr rfl
    · exact .inl rfl
  | revokeFamily familyId => exact h.revokeWhere _
  | revokeAllUserSessions userId except => exact h.revokeWhere _
  | getUserSessions userId => exact h
  | cleanup =>
    refine ⟨h.now, fun {k y} hy => ?_⟩
    rw [Spec.Manager.call, OMap.get_filterValues, Option.filter_eq_some_iff] at hy
    exact h.sound hy.1
  | wait seconds => exact ⟨Nat.add_pos_left h.now _, h.sound⟩

theorem Inv.new {now : ℕ} (hnow : 0 < now) : Inv fresh (Spec.new now) :=
  ⟨hnow, fun hx => by cases hx⟩

end

/-! ## TypeScript -/

namespace Ts
open TypeFerry.Auth.Ports.Ts
open TypeFerry.Auth.SessionManager (State)

def image (x : Spec.Session) : SessionManager.Session :=
  ⟨x.id, x.userId, x.familyId, x.token, x.expiration, x.revoked, x.rotated.map Prod.fst,
    x.rotated.map fun r => r.2 * 1000⟩

structure Implements (s : Spec.Manager) (m : Manager) : Prop where
  sessions : OMap.Image image s.sessions m.state.sessions
  now : m.state.now = s.now * 1000
  drawn : m.drawn = s.drawn

theorem seconds (n : ℕ) : ((n * 1000 : ℕ) : ℚ) / 1000 = ((n : ℤ) : ℚ) := by
  push_cast
  rw [mul_div_assoc, div_self (by norm_num), mul_one]

theorem isExpired_image (x : Spec.Session) (now : ℕ) :
    (image x).isExpired (now * 1000) = decide (x.expiration < now) := by
  rw [SessionManager.Session.isExpired, seconds]
  exact decide_eq_decide.mpr Int.cast_lt

theorem isReplaced_image {fresh : ℕ → Text} {d : ℕ} {k : Text} {x : Spec.Session} (h : Sound fresh d k x) :
    (image x).isReplaced = x.rotated.isSome := by
  cases hr : x.rotated with
  | none => simp [SessionManager.Session.isReplaced, image, hr]
  | some r => simp [SessionManager.Session.isReplaced, image, hr, (h.rotated r hr).1]

theorem outsideGrace_image {settings : Settings} {x : Spec.Session} {next : Text} {used now : ℕ}
    (hr : x.rotated = some (next, used)) (hused : 0 < used) :
    (image x).outsideGrace (config settings) (now * 1000) = decide (settings.graceSeconds < (now : ℤ) - used) := by
  have hcast : ((settings.graceSeconds : ℚ) * 1000 < ((now * 1000 : ℕ) : ℚ) - ((used * 1000 : ℕ) : ℚ)) ↔
      settings.graceSeconds < (now : ℤ) - used := by
    rw [← Int.cast_lt (R := ℚ)]
    push_cast
    constructor <;> intro h <;> linarith
  have hne : used * 1000 ≠ 0 := by omega
  simp only [SessionManager.Session.outsideGrace, image, hr, Option.map_some, hne, decide_false, Bool.false_or]
  exact decide_eq_decide.mpr hcast

section
variable {settings : Settings} {fresh : ℕ → Text} {s : Spec.Manager} {m : Manager}

theorem Implements.revokeWhere (h : Implements s m) {p : Spec.Session → Bool}
    {q : SessionManager.Session → Bool} (hp : ∀ x ∈ s.sessions.values, q (image x) = p x) :
    Implements (s.revokeWhere p) ⟨(m.state.revokeWhere q).1, m.drawn⟩ ∧
      (m.state.revokeWhere q).2 = s.count p := by
  have hp' : ∀ x ∈ s.sessions.values, (q (image x) && !(image x).isRevoked) = (p x && !x.revoked) :=
    fun x hx => by rw [hp x hx]; rfl
  refine ⟨⟨h.sessions.mapValues fun x hx => ?_, h.now, h.drawn⟩, ?_⟩
  · rw [hp' x hx]
    split <;> rfl
  · exact (h.sessions.filter_perm hp').length_eq.trans (List.length_map _)

theorem expiration_eq (h : Implements s m) :
    m.state.expiration (config settings) = ((s.now + settings.days * 86400 : ℤ) : ℚ) := by
  rw [State.expiration, h.now, Nat.mul_div_cancel _ (by norm_num)]
  show _ + (settings.days : ℚ) * 24 * 60 * 60 = _
  push_cast
  ring

/-- A session with the next two identifiers is issued. -/
theorem Implements.issue (h : Implements s m) (userId familyId : Text) :
    Implements (s.issue settings fresh userId familyId).1
      ⟨m.state.issue ⟨fresh (m.drawn + 1), userId, familyId, fresh m.drawn,
        m.state.expiration (config settings), false, none, none⟩, m.drawn + 2⟩ := by
  refine ⟨?_, h.now, congrArg (· + 2) h.drawn⟩
  rw [expiration_eq h, h.drawn]
  exact h.sessions.set (fresh s.drawn) (s.issued settings fresh userId familyId)

theorem Implements.granted (h : Implements s m) {k : Text} {x : Spec.Session} (hx : s.sessions.get k = some x)
    (htoken : x.token = k) (userId sessionId : Text) :
    Manager.pair m.state (some (m.state.buildTokenPair (config settings) k userId sessionId)) = x.granted := by
  show Outcome.pair k ((m.state.sessions.get k).map _) = _
  rw [h.sessions k, hx, ← htoken]
  rfl

theorem Implements.reuse (hinv : Inv fresh s) (h : Implements s m) {k : Text} {x : Spec.Session}
    (hx : s.sessions.get k = some x) {next : Text} {used : ℕ} (hr : x.rotated = some (next, used)) :
    Implements (s.reuse settings x next used).1
        ⟨(m.state.handleReusedToken (config settings) (image x)).1, m.drawn⟩ ∧
      Manager.pair (m.state.handleReusedToken (config settings) (image x)).1
        (m.state.handleReusedToken (config settings) (image x)).2 = (s.reuse settings x next used).2 := by
  have houtside := @outsideGrace_image settings x next used s.now hr ((hinv.sound hx).rotated _ hr).2
  rw [← h.now] at houtside
  by_cases hgrace : settings.graceSeconds < (s.now : ℤ) - used
  · rw [State.handleReusedToken, if_pos (houtside.trans (decide_eq_true hgrace)), Spec.Manager.reuse, if_pos hgrace]
    exact ⟨(h.revokeWhere (p := fun y => y.familyId = x.familyId) fun y _ => rfl).1, rfl⟩
  · rw [State.handleReusedToken, if_neg (by rw [houtside, decide_eq_true_eq]; exact hgrace), Spec.Manager.reuse,
      if_neg hgrace]
    refine ⟨h, ?_⟩
    have hnext : (image x).replacedBy = some next := by rw [image, hr]; rfl
    dsimp only
    rw [hnext, Option.bind_some, h.sessions next]
    cases hy : s.sessions.get next with
    | none => rfl
    | some y =>
      cases hrev : y.revoked with
      | true => simp [image, hrev, Manager.pair]
      | false =>
        have htoken := (hinv.sound hy).token
        simp only [Option.map_some, image, hrev, htoken]
        exact h.granted hy htoken y.userId y.id

theorem Implements.rotate (h : Implements s m) (x : Spec.Session) :
    let r := m.state.rotateSession (config settings) (image x) (fresh m.drawn) (fresh (m.drawn + 1))
    Implements (s.rotate settings fresh x).1 ⟨r.1, m.drawn + 2⟩ ∧
      Manager.pair r.1 (some r.2) = (s.rotate settings fresh x).2 := by
  have hset : Implements (s.store { x with rotated := some (fresh s.drawn, s.now) })
      ⟨{ m.state with sessions := m.state.sessions.set x.token ((image x).replace (fresh m.drawn) m.state.now) },
        m.drawn⟩ := by
    refine ⟨?_, h.now, h.drawn⟩
    rw [h.drawn, h.now]
    exact h.sessions.set x.token { x with rotated := some (fresh s.drawn, s.now) }
  have himp := @Implements.issue settings fresh _ _ hset x.userId x.familyId
  refine ⟨himp, ?_⟩
  rw [show m.drawn = s.drawn from h.drawn] at himp ⊢
  exact himp.granted (OMap.get_set_self ..) rfl _ _

theorem Implements.refresh (hinv : Inv fresh s) (h : Implements s m) (token : Text) :
    Implements (s.refresh settings fresh token).1 (m.call settings fresh (.refreshSession token)).1 ∧
      (m.call settings fresh (.refreshSession token)).2 = (s.refresh settings fresh token).2 := by
  have hget := h.sessions token
  rw [Manager.call, State.refreshSession, Manager.rotates, Spec.Manager.refresh, hget]
  cases hx : s.sessions.get token with
  | none => exact ⟨h, rfl⟩
  | some x =>
    have hexpired := isExpired_image x s.now
    have hreplaced := isReplaced_image (hinv.sound hx)
    rw [← h.now] at hexpired
    simp only [Option.map_some, Option.any_some, hexpired, hreplaced]
    cases hrev : (image x).isRevoked with
    | true =>
      rw [if_pos (.inl hrev)]
      exact ⟨h, rfl⟩
    | false =>
      by_cases hexp : x.expiration < s.now
      · simp only [hexp, decide_true, or_true, if_true]
        exact ⟨h, rfl⟩
      · have hlive : ¬ (x.revoked = true ∨ x.expiration < s.now) := by simp [hexp, show x.revoked = false from hrev]
        rw [if_neg hlive]
        cases hr : x.rotated with
        | none => simpa [hexp, hr] using @Implements.rotate settings fresh s m h x
        | some r => simpa [hexp, hr] using @Implements.reuse settings fresh s m hinv h token x hx r.1 r.2 hr

theorem Implements.call (hfresh : Fresh fresh) (hinv : Inv fresh s) (h : Implements s m) (c : Call) :
    Implements (s.call settings fresh c).1 (m.call settings fresh c).1 ∧
      (m.call settings fresh c).2 = (s.call settings fresh c).2 := by
  cases c with
  | createSession userId =>
    have hdrawn : Implements { s with drawn := s.drawn + 1 } ⟨m.state, m.drawn + 1⟩ :=
      ⟨h.sessions, h.now, congrArg (· + 1) h.drawn⟩
    have himp := @Implements.issue settings fresh _ _ hdrawn userId (fresh s.drawn)
    rw [Manager.call, Spec.Manager.call, State.createSession]
    rw [h.drawn] at himp ⊢
    exact ⟨himp, himp.granted (OMap.get_set_self ..) rfl _ _⟩
  | refreshSession token => exact h.refresh hinv token
  | revokeSession id =>
    refine ⟨⟨?_, h.now, h.drawn⟩, congrArg Outcome.revoked (h.sessions.any_values fun x _ => rfl)⟩
    have himage := h.sessions.changeFirst (p := fun x => decide (x.id = id)) (g := Spec.Session.revoke)
      (q := fun x => decide (x.id = id)) (u := SessionManager.Session.revoke) (fun x => rfl) (fun x => rfl)
      fun k v k' v' hv hv' hp hp' => hinv.once hfresh id hv hv' (of_decide_eq_true hp) (of_decide_eq_true hp')
    simp only [decide_eq_true_eq] at himage
    exact himage
  | revokeFamily familyId =>
    obtain ⟨himp, hcount⟩ := h.revokeWhere (p := fun x => x.familyId = familyId)
      (q := fun x => x.familyId = familyId) fun x _ => rfl
    exact ⟨himp, congrArg Outcome.count hcount⟩
  | revokeAllUserSessions userId except =>
    obtain ⟨himp, hcount⟩ := h.revokeWhere
      (p := fun x => x.userId = userId && except.all (x.familyId ≠ ·))
      (q := fun x => x.userId = userId && (!except.any (· ≠ []) || some x.familyId ≠ except)) fun x hx => by
        exact congrArg (decide (x.userId = userId) && ·) (hinv.excepts hx except)
    exact ⟨himp, congrArg Outcome.count hcount⟩
  | getUserSessions userId =>
    refine ⟨h, congrArg Outcome.sessions (Quotient.sound ?_)⟩
    have hperm := h.sessions.filter_perm (p := fun x => x.userId = userId && x.live s.now)
      (q := fun x => x.userId = userId && !x.isRevoked && !x.isReplaced &&
        (m.state.now : ℚ) / 1000 < x.expiration) fun x hx => by
        obtain ⟨k, hk⟩ := OMap.mem_values.mp hx
        have hlt : decide (((s.now : ℤ) : ℚ) < (image x).expiration) = decide ((s.now : ℤ) < x.expiration) :=
          decide_eq_decide.mpr Int.cast_lt
        rw [isReplaced_image (hinv.sound hk), h.now, seconds, hlt, Spec.Session.live, Option.not_isSome,
          ← Bool.and_assoc, ← Bool.and_assoc]
        rfl
    have hlisted := hperm.map fun x => Listed.mk x.id x.userId x.familyId x.token
    rw [List.map_map] at hlisted
    exact hlisted
  | cleanup =>
    refine ⟨⟨h.sessions.filterValues fun x _ => ?_, h.now, h.drawn⟩, rfl⟩
    rw [h.now, seconds]
    show (!(x.revoked || decide ((x.expiration : ℚ) ≤ _))) = _
    rw [decide_eq_decide.mpr Int.cast_le]
  | wait seconds => exact ⟨⟨h.sessions, by rw [Manager.call, Spec.Manager.call, State.advance, h.now, Nat.add_mul], h.drawn⟩, rfl⟩

end

end Ts

/-! ## Go -/

namespace Go
open TypeFerry.Auth.Ports.Go

def image (x : Spec.Session) : Session :=
  ⟨x.id, x.userId, x.familyId, x.token, x.expiration * 1000000000, x.revoked,
    (x.rotated.map Prod.fst).getD [], (x.rotated.map fun r => (r.2 : ℤ) * 1000000000).getD zeroTime⟩

structure Implements (s : Spec.Manager) (m : Manager) : Prop where
  sessions : OMap.Image image s.sessions m.sessions
  now : m.now = s.now * 1000000000
  drawn : m.drawn = s.drawn

theorem replacedBy_image {fresh : ℕ → Text} {d : ℕ} {k : Text} {x : Spec.Session} (h : Sound fresh d k x) :
    (image x).replacedBy = [] ↔ x.rotated = none := by
  cases hr : x.rotated with
  | none => simp [image, hr]
  | some r => simp [image, hr, (h.rotated r hr).1]

/-- A difference that is too large for a duration is larger than any grace period. -/
theorem lt_sub (settings : Settings) (now used : ℕ) :
    settings.graceSeconds * 1000000000 < sub ((now : ℤ) * 1000000000) (used * 1000000000) ↔
      settings.graceSeconds < (now : ℤ) - used := by
  have hduration := settings.duration
  rw [sub]
  omega

section
variable {settings : Settings} {fresh : ℕ → Text} {range : RangeOrder (Text × Session)} {s : Spec.Manager} {m : Manager}

theorem Implements.revokeWhere (h : Implements s m) {p : Spec.Session → Bool} {q : Session → Bool}
    (hp : ∀ x ∈ s.sessions.values, q (image x) = p x) :
    Implements (s.revokeWhere p) (m.revokeWhere q).1 ∧ (m.revokeWhere q).2 = s.count p := by
  have hp' : ∀ x ∈ s.sessions.values, (q (image x) && !(image x).revoked) = (p x && !x.revoked) :=
    fun x hx => by rw [hp x hx]; rfl
  refine ⟨⟨h.sessions.mapValues fun x hx => ?_, h.now, h.drawn⟩, ?_⟩
  · rw [hp' x hx]
    split <;> rfl
  · exact (h.sessions.filter_perm hp').length_eq.trans (List.length_map _)

theorem Implements.lt_expiration (h : Implements s m) (x : Spec.Session) :
    m.now < (image x).expiration ↔ (s.now : ℤ) < x.expiration := by
  show m.now < x.expiration * 1000000000 ↔ _
  rw [h.now]
  omega

/-- A session with the next two identifiers is issued. -/
theorem Implements.issue (h : Implements s m) (userID familyID : Text) :
    Implements (s.issue settings fresh userID familyID).1
      (m.createLocked (config settings) fresh userID familyID).1 := by
  refine ⟨?_, h.now, congrArg (· + 2) h.drawn⟩
  have himage := h.sessions.set (fresh s.drawn) (s.issued settings fresh userID familyID)
  have hexpiration : m.now + settings.days * 86400 * 1000000000 = (s.now + settings.days * 86400) * 1000000000 := by
    rw [h.now]
    ring
  rw [Manager.createLocked]
  dsimp only [config]
  rw [hexpiration, h.drawn]
  exact himage

theorem Implements.granted (h : Implements s m) {x : Spec.Session} (hx : s.sessions.get x.token = some x)
    (expiry : ℤ) (access : Text) : m.pair (.ok ⟨access, x.token, expiry⟩) = x.granted := by
  rw [Manager.pair, h.sessions x.token, hx]
  rfl

theorem Implements.rotate (hfresh : Fresh fresh) (hinv : Inv fresh s) (h : Implements s m) {token : Text}
    {x : Spec.Session} (hx : s.sessions.get token = some x) :
    let r := m.createLocked (config settings) fresh x.userId x.familyId
    let session := { image x with replacedBy := r.2.refreshToken, usedAt := r.1.now }
    let m' : Manager := { r.1 with sessions := r.1.sessions.set token session }
    Implements (s.rotate settings fresh x).1 m' ∧ m'.pair (.ok r.2) = (s.rotate settings fresh x).2 := by
  have hsound := hinv.sound hx
  obtain rfl := hsound.token
  have himp := @Implements.issue settings fresh _ _ h x.userId x.familyId
  -- The map is set at the old token after the new one was put into it.
  have hset := (himp.sessions.set x.token { x with rotated := some (fresh s.drawn, s.now) }).set_comm
    (hsound.not_next hfresh (le_refl _)).symm
  obtain ⟨sessions, now, drawn⟩ := m
  obtain ⟨-, rfl, rfl⟩ := h
  intro r session m'
  have hrotated : Implements (s.rotate settings fresh x).1 m' := ⟨hset, himp.now, himp.drawn⟩
  exact ⟨hrotated, hrotated.granted (OMap.get_set_self ..) _ _⟩

/-- What is found to be live is rotated or reused. -/
theorem Implements.refresh (hfresh : Fresh fresh) (hinv : Inv fresh s) (h : Implements s m) (token : Text) :
    Implements (s.refresh settings fresh token).1 (m.call settings fresh range (.refreshSession token)).1 ∧
      (m.call settings fresh range (.refreshSession token)).2 = (s.refresh settings fresh token).2 := by
  rw [Manager.call, Manager.refreshSession, Spec.Manager.refresh, h.sessions token]
  cases hx : s.sessions.get token with
  | none => exact ⟨h, rfl⟩
  | some x =>
    have hdead : ((image x).revoked = true ∨ (image x).expiration < m.now) ↔
        (x.revoked = true ∨ x.expiration < s.now) := by
      refine or_congr_right ?_
      show x.expiration * 1000000000 < m.now ↔ _
      rw [h.now]
      omega
    have hreplaced := replacedBy_image (hinv.sound hx)
    dsimp only [Option.map_some]
    by_cases hdead' : x.revoked = true ∨ x.expiration < s.now
    · rw [if_pos (hdead.mpr hdead'), if_pos hdead']
      exact ⟨h, rfl⟩
    · rw [if_neg (mt hdead.mp hdead'), if_neg hdead']
      cases hr : x.rotated with
      | none =>
        rw [if_neg (not_not.mpr (hreplaced.mpr hr))]
        exact h.rotate hfresh hinv hx
      | some r =>
        obtain ⟨next, used⟩ := r
        have hrepl : (image x).replacedBy = next := by rw [image, hr]; rfl
        have hused : (image x).usedAt = used * 1000000000 := by rw [image, hr]; rfl
        have hreuse : ((image x).usedAt = zeroTime ∨
            (config settings).rotationGracePeriod < sub m.now (image x).usedAt) ↔
            settings.graceSeconds < (s.now : ℤ) - used := by
          rw [hused, h.now, ← lt_sub, zeroTime]
          exact or_iff_right (by omega)
        dsimp only
        rw [if_pos (mt hreplaced.mp (by simp [hr])), Spec.Manager.reuse]
        by_cases hgrace : settings.graceSeconds < (s.now : ℤ) - used
        · rw [if_pos (hreuse.mpr hgrace), if_pos hgrace]
          exact ⟨(h.revokeWhere (p := fun y => y.familyId = x.familyId) fun y _ => rfl).1, rfl⟩
        · rw [if_neg (mt hreuse.mp hgrace), if_neg hgrace, hrepl, h.sessions next]
          cases hy : s.sessions.get next with
          | none => exact ⟨h, rfl⟩
          | some y =>
            dsimp only [Option.map_some]
            by_cases hrev : y.revoked = true
            · rw [if_pos (show (image y).revoked = true from hrev), if_pos hrev]
              exact ⟨h, rfl⟩
            · rw [if_neg (show ¬ (image y).revoked = true from hrev), if_neg hrev]
              obtain rfl := (hinv.sound hy).token
              exact ⟨h, h.granted hy _ _⟩

/-- Whichever session the iteration finds first, there is no other with this identifier. -/
theorem Implements.revokeSession (hfresh : Fresh fresh) (hinv : Inv fresh s) (h : Implements s m) (id : Text) :
    Implements (s.call settings fresh (.revokeSession id)).1 (m.revokeSession range id).1 ∧
      (m.revokeSession range id).2 = s.sessions.values.any fun x => x.id = id := by
  have hmem : ∀ e, e ∈ range.order m.sessions.entries ↔ m.sessions.get e.1 = some e.2 := fun e =>
    (range.perm _).mem_iff.trans OMap.get_eq_some.symm
  rw [Manager.revokeSession]
  cases hfind : (range.order m.sessions.entries).find? fun e => decide (e.2.id = id) with
  | none =>
    rw [List.find?_eq_none] at hfind
    have hnot : ∀ k x, s.sessions.get k = some x → x.id ≠ id := fun k x hx heq => by
      have himage : m.sessions.get k = some (image x) := by rw [h.sessions k, hx]; rfl
      exact hfind (k, image x) ((hmem _).mpr himage) (decide_eq_true heq)
    refine ⟨⟨fun k => ?_, h.now, h.drawn⟩, ?_⟩
    · dsimp only [Spec.Manager.call]
      rw [h.sessions k, OMap.get_mapValues]
      cases hx : s.sessions.get k with
      | none => rfl
      | some x => rw [Option.map_some, Option.map_some, if_neg (hnot k x hx), Option.map_some]
    · refine (List.any_eq_false.mpr fun x hx => ?_).symm
      obtain ⟨k, hk⟩ := OMap.mem_values.mp hx
      simpa using hnot k x hk
  | some e =>
    obtain ⟨token, session⟩ := e
    obtain ⟨x, hx, rfl⟩ : ∃ x, s.sessions.get token = some x ∧ image x = session := by
      have hget := (hmem _).mp (List.mem_of_find?_eq_some hfind)
      rw [h.sessions token] at hget
      exact Option.map_eq_some_iff.mp hget
    have hfound := List.find?_some hfind
    have hid : x.id = id := of_decide_eq_true hfound
    refine ⟨⟨fun k => ?_, h.now, h.drawn⟩, ?_⟩
    · dsimp only [Spec.Manager.call]
      rw [OMap.get_set, OMap.get_mapValues]
      split
      · next hk => rw [hk, hx, Option.map_some, if_pos hid]; rfl
      · next hk =>
        rw [h.sessions k]
        cases hy : s.sessions.get k with
        | none => rfl
        | some y =>
          rw [Option.map_some, Option.map_some, if_neg fun hyid => hk (hinv.once hfresh id hy hx hyid hid),
            Option.map_some]
    · exact (List.any_eq_true.mpr ⟨x, OMap.mem_values.mpr ⟨token, hx⟩, decide_eq_true hid⟩).symm

theorem Implements.call (hfresh : Fresh fresh) (hinv : Inv fresh s) (h : Implements s m) {c : Call}
    (hnamed : c.Named) :
    Implements (s.call settings fresh c).1 (m.call settings fresh range c).1 ∧
      (m.call settings fresh range c).2 = (s.call settings fresh c).2 := by
  cases c with
  | createSession userId =>
    have hdrawn : Implements { s with drawn := s.drawn + 1 } { m with drawn := m.drawn + 1 } :=
      ⟨h.sessions, h.now, congrArg (· + 1) h.drawn⟩
    have himp := @Implements.issue settings fresh _ _ hdrawn userId (fresh s.drawn)
    rw [Manager.call, Manager.createSession, if_neg hnamed, Spec.Manager.call]
    obtain ⟨sessions, now, drawn⟩ := m
    obtain ⟨-, rfl, rfl⟩ := h
    exact ⟨himp, himp.granted (OMap.get_set_self ..) _ _⟩
  | refreshSession token => exact h.refresh hfresh hinv token
  | revokeSession id =>
    obtain ⟨himp, hfound⟩ := @Implements.revokeSession settings fresh range s m hfresh hinv h id
    exact ⟨himp, congrArg Outcome.revoked hfound⟩
  | revokeFamily familyId =>
    obtain ⟨himp, hcount⟩ := h.revokeWhere (p := fun x => x.familyId = familyId)
      (q := fun x => x.familyID = familyId) fun x _ => rfl
    exact ⟨himp, congrArg Outcome.count hcount⟩
  | revokeAllUserSessions userId except =>
    obtain ⟨himp, hcount⟩ := h.revokeWhere
      (p := fun x => x.userId = userId && except.all (x.familyId ≠ ·))
      (q := fun x => x.userID = userId && x.familyID ≠ except.getD []) fun x hx => by
        obtain ⟨k, hk⟩ := OMap.mem_values.mp hx
        cases except with
        | none =>
          show (decide _ && decide (x.familyId ≠ [])) = (decide _ && true)
          rw [decide_eq_true (hinv.sound hk).family]
          rfl
        | some f => rfl
    exact ⟨himp, congrArg Outcome.count hcount⟩
  | getUserSessions userId =>
    refine ⟨h, congrArg Outcome.sessions (Quotient.sound ?_)⟩
    have hperm := h.sessions.filter_perm (p := fun x => x.userId = userId && x.live s.now)
      (q := fun x => x.userID = userId && !x.revoked && x.replacedBy = [] && m.now < x.expiration) fun x hx => by
        obtain ⟨k, hk⟩ := OMap.mem_values.mp hx
        have hlt : decide (m.now < (image x).expiration) = decide ((s.now : ℤ) < x.expiration) :=
          decide_eq_decide.mpr (h.lt_expiration x)
        have hreplaced : decide ((image x).replacedBy = []) = x.rotated.isNone :=
          Bool.eq_iff_iff.mpr (decide_eq_true_iff.trans
            ((replacedBy_image (hinv.sound hk)).trans Option.isNone_iff_eq_none.symm))
        rw [hlt, hreplaced, Spec.Session.live, ← Bool.and_assoc, ← Bool.and_assoc]
        rfl
    have hlisted := hperm.map fun x => Listed.mk x.id x.userID x.familyID x.token
    rw [List.map_map] at hlisted
    -- The listed sessions come in the order of the iteration.
    refine List.Perm.trans ?_ hlisted
    exact (((range.perm _).map Prod.snd).filter _).map _
  | cleanup =>
    refine ⟨⟨h.sessions.filterValues fun x _ => ?_, h.now, h.drawn⟩, rfl⟩
    show (!(x.revoked || !decide (m.now < (image x).expiration))) = _
    rw [decide_eq_decide.mpr (h.lt_expiration x), ← decide_not, decide_eq_decide.mpr Int.not_lt]
  | wait seconds =>
    refine ⟨⟨h.sessions, ?_, h.drawn⟩, rfl⟩
    show m.now + seconds * 1000000000 = ((s.now + seconds : ℕ) : ℤ) * 1000000000
    rw [h.now]
    push_cast
    ring

end

end Go

/-! ## Python -/

namespace Py
open TypeFerry.Auth.Ports.Py

def image (x : Spec.Session) : Session :=
  ⟨x.id, x.userId, x.familyId, x.token, x.expiration, x.revoked, x.rotated.map Prod.fst,
    x.rotated.map fun r => (r.2 : ℤ) * 1000⟩

structure Implements (s : Spec.Manager) (m : Manager) : Prop where
  sessions : OMap.Image image s.sessions m.sessions
  time : m.time = s.now
  drawn : m.drawn = s.drawn

section
variable {settings : Settings} {fresh : ℕ → Text} {s : Spec.Manager} {m : Manager}

theorem Implements.revokeWhere (h : Implements s m) {p : Spec.Session → Bool} {q : Session → Bool}
    (hp : ∀ x ∈ s.sessions.values, q (image x) = p x) :
    Implements (s.revokeWhere p) (m.revokeWhere q).1 ∧ (m.revokeWhere q).2 = s.count p := by
  have hp' : ∀ x ∈ s.sessions.values, (q (image x) && !(image x).is_revoked) = (p x && !x.revoked) :=
    fun x hx => by rw [hp x hx]; rfl
  refine ⟨⟨h.sessions.mapValues fun x hx => ?_, h.time, h.drawn⟩, ?_⟩
  · rw [hp' x hx]
    split <;> rfl
  · exact (h.sessions.filter_perm hp').length_eq.trans (List.length_map _)

theorem Implements.granted (h : Implements s m) {x : Spec.Session} (hx : s.sessions.get x.token = some x)
    (exp : ℤ) (access_token : Text) : m.pair (some ⟨access_token, x.token, exp⟩) = x.granted := by
  rw [Manager.pair, h.sessions x.token, hx]
  rfl

theorem Implements.reuse (hinv : Inv fresh s) (h : Implements s m) {x : Spec.Session} {next : Text} {used : ℕ}
    (hr : x.rotated = some (next, used)) :
    let r := m.handleReusedToken (config settings) (image x)
    Implements (s.reuse settings x next used).1 r.1 ∧ r.1.pair r.2 = (s.reuse settings x next used).2 := by
  have hreuse : ((image x).used_at.all fun used_at =>
      decide ((config settings).rotation_grace_period_seconds * 1000 < m.time * 1000 - used_at)) = true ↔
      settings.graceSeconds < (s.now : ℤ) - used := by
    have hused : (image x).used_at = some ((used : ℤ) * 1000) := by rw [image, hr]; rfl
    rw [hused, Option.all_some, decide_eq_true_eq, h.time]
    show settings.graceSeconds * 1000 < _ ↔ _
    omega
  rw [Manager.handleReusedToken, Spec.Manager.reuse]
  by_cases hgrace : settings.graceSeconds < (s.now : ℤ) - used
  · rw [if_pos (hreuse.mpr hgrace), if_pos hgrace]
    exact ⟨(h.revokeWhere (p := fun y => y.familyId = x.familyId) fun y _ => rfl).1, rfl⟩
  · have hnext : (image x).replaced_by = some next := by rw [image, hr]; rfl
    rw [if_neg (mt hreuse.mp hgrace), if_neg hgrace, hnext, Option.bind_some, h.sessions next]
    cases hy : s.sessions.get next with
    | none => exact ⟨h, rfl⟩
    | some y =>
      dsimp only [Option.map_some]
      by_cases hrev : y.revoked = true
      · rw [if_pos (show (image y).is_revoked = true from hrev), if_pos hrev]
        exact ⟨h, rfl⟩
      · rw [if_neg (show ¬ (image y).is_revoked = true from hrev), if_neg hrev]
        obtain rfl := (hinv.sound hy).token
        exact ⟨h, h.granted hy _ _⟩

theorem Implements.rotate (h : Implements s m) (x : Spec.Session) :
    let r := m.rotateSession (config settings) fresh (image x)
    Implements (s.rotate settings fresh x).1 r.1 ∧ r.1.pair (some r.2) = (s.rotate settings fresh x).2 := by
  obtain ⟨sessions, time, drawn⟩ := m
  obtain ⟨hsessions, rfl, rfl⟩ := h
  intro r
  have hrotated : Implements (s.rotate settings fresh x).1 r.1 :=
    ⟨(hsessions.set x.token { x with rotated := some (fresh s.drawn, s.now) }).set (fresh s.drawn)
      (s.issued settings fresh x.userId x.familyId), rfl, rfl⟩
  exact ⟨hrotated, hrotated.granted (OMap.get_set_self ..) _ _⟩

/-- What is found to be live is rotated or reused. -/
theorem Implements.refresh (hinv : Inv fresh s) (h : Implements s m) (token : Text) :
    Implements (s.refresh settings fresh token).1 (m.call settings fresh (.refreshSession token)).1 ∧
      (m.call settings fresh (.refreshSession token)).2 = (s.refresh settings fresh token).2 := by
  rw [Manager.call, Manager.refreshSession, Spec.Manager.refresh, h.sessions token]
  cases hx : s.sessions.get token with
  | none => exact ⟨h, rfl⟩
  | some x =>
    dsimp only [Option.map_some]
    by_cases hrev : x.revoked = true
    · rw [if_pos (show (image x).is_revoked = true from hrev), if_pos (.inl hrev)]
      exact ⟨h, rfl⟩
    · rw [if_neg (show ¬ (image x).is_revoked = true from hrev)]
      by_cases hexp : x.expiration < s.now
      · rw [if_pos (show (image x).expiration < m.time from h.time ▸ hexp), if_pos (.inr hexp)]
        exact ⟨h, rfl⟩
      · rw [if_neg (show ¬ (image x).expiration < m.time from h.time ▸ hexp), if_neg (not_or.mpr ⟨hrev, hexp⟩)]
        cases hr : x.rotated with
        | none =>
          rw [if_neg (by simp [image, hr])]
          exact h.rotate x
        | some r =>
          rw [if_pos (by simp [image, hr])]
          exact h.reuse hinv hr

theorem Implements.call (hfresh : Fresh fresh) (hinv : Inv fresh s) (h : Implements s m) (c : Call) :
    Implements (s.call settings fresh c).1 (m.call settings fresh c).1 ∧
      (m.call settings fresh c).2 = (s.call settings fresh c).2 := by
  cases c with
  | createSession userId =>
    obtain ⟨sessions, time, drawn⟩ := m
    obtain ⟨hsessions, rfl, rfl⟩ := h
    have himp : Implements (s.call settings fresh (.createSession userId)).1
        (Manager.call settings fresh ⟨sessions, s.now, s.drawn⟩ (.createSession userId)).1 :=
      ⟨hsessions.set (fresh (s.drawn + 1))
        (Spec.Manager.issued settings fresh { s with drawn := s.drawn + 1 } userId (fresh s.drawn)), rfl, rfl⟩
    exact ⟨himp, himp.granted (OMap.get_set_self ..) _ _⟩
  | refreshSession token => exact h.refresh hinv token
  | revokeSession id =>
    refine ⟨⟨?_, h.time, h.drawn⟩, congrArg Outcome.revoked (h.sessions.any_values fun x _ => rfl)⟩
    have himage := h.sessions.changeFirst (p := fun x => decide (x.id = id)) (g := Spec.Session.revoke)
      (q := fun x => decide (x.id = id)) (u := fun x => { x with is_revoked := true })
      (fun x => rfl) (fun x => rfl)
      fun k v k' v' hv hv' hp hp' => hinv.once hfresh id hv hv' (of_decide_eq_true hp) (of_decide_eq_true hp')
    simp only [decide_eq_true_eq] at himage
    exact himage
  | revokeFamily familyId =>
    obtain ⟨himp, hcount⟩ := h.revokeWhere (p := fun x => x.familyId = familyId)
      (q := fun x => x.family_id = familyId) fun x _ => rfl
    exact ⟨himp, congrArg Outcome.count hcount⟩
  | revokeAllUserSessions userId except =>
    obtain ⟨himp, hcount⟩ := h.revokeWhere
      (p := fun x => x.userId = userId && except.all (x.familyId ≠ ·))
      (q := fun x => x.user_id = userId && except.all (x.family_id ≠ ·)) fun x _ => rfl
    exact ⟨himp, congrArg Outcome.count hcount⟩
  | getUserSessions userId =>
    refine ⟨h, congrArg Outcome.sessions (Quotient.sound ?_)⟩
    have hperm := h.sessions.filter_perm (p := fun x => x.userId = userId && x.live s.now)
      (q := fun x => x.user_id = userId && !x.is_revoked && x.replaced_by.isNone && m.time < x.expiration)
      fun x _ => by
        have hreplaced : (image x).replaced_by.isNone = x.rotated.isNone := Option.isNone_map ..
        rw [hreplaced, h.time, Spec.Session.live, ← Bool.and_assoc, ← Bool.and_assoc]
        rfl
    have hlisted := hperm.map fun x => Listed.mk x.id x.user_id x.family_id x.token
    rw [List.map_map] at hlisted
    exact hlisted
  | cleanup =>
    refine ⟨⟨h.sessions.filterValues fun x _ => ?_, h.time, h.drawn⟩, rfl⟩
    rw [h.time]
    rfl
  | wait seconds =>
    refine ⟨⟨h.sessions, ?_, h.drawn⟩, rfl⟩
    show m.time + seconds = ((s.now + seconds : ℕ) : ℤ)
    rw [h.time, Nat.cast_add]

end

end Py

/-! ## The three of them -/

/-- Time is in whole seconds, after 1970. The Go manager may iterate over its map in another
order at each call. -/
theorem managers_agree (settings : Settings) {fresh : ℕ → Text} (hfresh : Fresh fresh) {now : ℕ} (hnow : 0 < now)
    (calls : List (Call × RangeOrder (Text × Ports.Go.Session))) (hnamed : ∀ c ∈ calls, c.1.Named) :
    outcomes (fun m c => Ports.Ts.Manager.call settings fresh m c.1) (Ports.Ts.new now) calls =
      outcomes (fun m c => Ports.Go.Manager.call settings fresh c.2 m c.1) (Ports.Go.new now) calls ∧
    outcomes (fun m c => Ports.Ts.Manager.call settings fresh m c.1) (Ports.Ts.new now) calls =
      outcomes (fun m c => Ports.Py.Manager.call settings fresh m c.1) (Ports.Py.new now) calls := by
  have hts : outcomes (fun m c => Spec.Manager.call settings fresh m c.1) (Spec.new now) calls =
      outcomes (fun m c => Ports.Ts.Manager.call settings fresh m c.1) (Ports.Ts.new now) calls := by
    refine outcomes_eq (fun s m => Inv fresh s ∧ Ts.Implements s m) (fun c => c.1.Named) (fun s m c _ h => ?_)
      calls hnamed ⟨.new hnow, fun k => rfl, rfl, rfl⟩
    obtain ⟨himp, heq⟩ := @Ts.Implements.call settings fresh _ _ hfresh h.1 h.2 c.1
    exact ⟨⟨h.1.call hfresh c.1, himp⟩, heq.symm⟩
  have hgo : outcomes (fun m c => Spec.Manager.call settings fresh m c.1) (Spec.new now) calls =
      outcomes (fun m c => Ports.Go.Manager.call settings fresh c.2 m c.1) (Ports.Go.new now) calls := by
    refine outcomes_eq (fun s m => Inv fresh s ∧ Go.Implements s m) (fun c => c.1.Named) (fun s m c hc h => ?_)
      calls hnamed ⟨.new hnow, fun k => rfl, rfl, rfl⟩
    obtain ⟨himp, heq⟩ := @Go.Implements.call settings fresh c.2 _ _ hfresh h.1 h.2 c.1 hc
    exact ⟨⟨h.1.call hfresh c.1, himp⟩, heq.symm⟩
  have hpy : outcomes (fun m c => Spec.Manager.call settings fresh m c.1) (Spec.new now) calls =
      outcomes (fun m c => Ports.Py.Manager.call settings fresh m c.1) (Ports.Py.new now) calls := by
    refine outcomes_eq (fun s m => Inv fresh s ∧ Py.Implements s m) (fun c => c.1.Named) (fun s m c _ h => ?_)
      calls hnamed ⟨.new hnow, fun k => rfl, rfl, rfl⟩
    obtain ⟨himp, heq⟩ := @Py.Implements.call settings fresh _ _ hfresh h.1 h.2 c.1
    exact ⟨⟨h.1.call hfresh c.1, himp⟩, heq.symm⟩
  exact ⟨hts.symm.trans hgo, hts.symm.trans hpy⟩

/-! ### A token that is stolen -/

def unary (i : ℕ) : Text := List.replicate (i + 1) 105

theorem unary_fresh : Fresh unary := by
  refine ⟨fun i j h => ?_, fun i h => ?_⟩
  · have hlength := congrArg List.length h
    simpa [unary] using hlength
  · cases h

/-- The token is rotated, presented again within the grace period and once more after it. -/
def stolen : List (Call × RangeOrder (Text × Ports.Go.Session)) :=
  [(.createSession (js "ann"), .insertion), (.refreshSession (unary 1), .insertion), (.wait 15, .insertion),
    (.refreshSession (unary 1), .insertion), (.wait 1, .insertion), (.refreshSession (unary 1), .insertion),
    (.refreshSession (unary 3), .insertion), (.cleanup, .insertion), (.getUserSessions (js "ann"), .insertion)]

/-- The theft is answered alike by the managers in TypeScript and in Go. -/
theorem managers_agree_stolen :
    outcomes (fun m c => Ports.Ts.Manager.call ⟨15, 14, 15, by decide⟩ unary m c.1) (Ports.Ts.new 1) stolen =
      outcomes (fun m c => Ports.Go.Manager.call ⟨15, 14, 15, by decide⟩ unary c.2 m c.1) (Ports.Go.new 1) stolen :=
  (managers_agree ⟨15, 14, 15, by decide⟩ unary_fresh one_pos stolen
    (by simp [stolen, Call.Named, js])).1

end TypeFerry.Auth.PortEquivalence
