import TypeFerry.Auth.SessionManager

/-! # Revocation is final

A token that was revoked, or whose session was deleted behind that, is never
accepted again: no operation takes a revocation back, and no identifier comes
twice. What `revokeAllUserSessions` leaves alone goes on as without the call. Two
runs with the same operations, one with the call and one without, keep the same
sessions of the other users and of the family that is excepted. -/
namespace TypeFerry.Auth.Revocation
open TypeFerry.Lib.Numeral TypeFerry.Lib.OrderedMap TypeFerry.Lib.Runs
open TypeFerry.Auth.SessionManager

/-! ## Tokens that are not accepted any more -/

/-- The action revokes the session that was issued as `t`. -/
def Revokes (config : AuthConfig) (s : State) (t : Session) : Action → Prop
  | .revokeFamily familyId => t.familyId = familyId
  | .refreshSession refreshToken _ _ => ∃ p, s.sessions.get refreshToken = some p ∧
      p.familyId = t.familyId ∧ p.isRevoked = false ∧ p.isExpired s.now = false ∧
      p.isReplaced = true ∧ p.outsideGrace config s.now = true
  | .revokeAllUserSessions userId exceptFamilyId =>
      t.userId = userId ∧ exceptFamilyId ≠ some t.familyId
  | _ => False

/-- The token was issued, and its session is revoked or deleted. -/
def Dead (s : State) (token : Text) : Prop :=
  token ∈ s.uuids ∧ ∀ x, s.sessions.get token = some x → x.isRevoked = true

section
variable {config : AuthConfig} {s s' : State} {token : Text}

theorem Dead.refused (h : Dead s token) (newToken newSessionId : Text) :
    (s.refreshSession config token newToken newSessionId).2 = none := by
  have hno : ∀ {p}, s.sessions.get token = some p → p.isRevoked ≠ false := fun hp hlive => by
    rw [h.2 _ hp] at hlive
    cases hlive
  have hr := refreshes config s token newToken newSessionId
  generalize s.refreshSession config token newToken newSessionId = result at hr ⊢
  cases hr with
  | refused => rfl
  | theft p hp hrevoked _ _ _ => rfl
  | reused p next b hp hrevoked _ _ _ _ _ => exact absurd hrevoked (hno hp)
  | rotated p hp hrevoked _ _ => exact absurd hrevoked (hno hp)

theorem dead_step (h : Inv config s) (hd : Dead s token) {a : Action}
    (hs : step config s a = some s') : Dead s' token := by
  unfold step at hs
  split at hs
  · next hnew =>
    cases hs
    refine ⟨List.mem_append_right _ hd.1, fun x hx => ?_⟩
    have hact := acts h a
    have hfresh : ∀ {id}, id ∈ a.draws → token ≠ id := fun hid heq => (hnew.2 _ hid).1 (heq ▸ hd.1)
    change (s.act config a).sessions.get token = some x at hx
    generalize s.act config a = s' at hact hx
    cases hact with
    | thins ht =>
      obtain ⟨y, hy, rfl | rfl⟩ := ht.get hx
      · exact hd.2 _ hy
      · rfl
    | creates n hs htoken _ _ _ _ _ =>
      rw [hs, State.issue, OMap.get_set, if_neg (hfresh htoken)] at hx
      exact hd.2 x hx
    | rotates k p newToken newSessionId hp hrevoked hs htoken _ =>
      rw [hs, get_rotateSession, if_neg (hfresh htoken)] at hx
      split at hx
      · next hk =>
        rw [hk, h.token hp] at hd
        rw [hd.2 p hp] at hrevoked
        cases hrevoked
      · exact hd.2 x hx
  · cases hs

/-- What is stored for a session that was issued. -/
theorem stands_of_token (h : Inv config s) {t x : Session} (ht : t ∈ s.issued)
    (hx : s.sessions.get t.token = some x) : Stands t x := by
  obtain ⟨t', ht', htoken, hstands⟩ := h.stored hx
  obtain rfl := h.tokens t' ht' t ht htoken
  exact hstands

theorem dead_revokeWhere (h : Inv config s) {t : Session} (ht : t ∈ s.issued) {p : Session → Bool}
    (hp : ∀ x, Stands t x → p x = true) : Dead (s.revokeWhere p).1 t.token := by
  refine ⟨(h.drawn t ht).1, fun x hx => ?_⟩
  rw [State.revokeWhere, OMap.get_mapValues] at hx
  obtain ⟨y, hy, rfl⟩ := Option.map_eq_some_iff.mp hx
  have hy := hp y (stands_of_token h ht hy)
  obtain hrevoked | hrevoked := Bool.eq_false_or_eq_true y.isRevoked
  · simp [hrevoked]
  · simp [hrevoked, hy, Session.revoke]

theorem dead_of_revokes (h : Inv config s) {t : Session} (ht : t ∈ s.issued) {a : Action}
    (hr : Revokes config s t a) (hs : step config s a = some s') : Dead s' t.token := by
  have hdead : Dead (s.act config a) t.token := by
    cases a with
    | revokeFamily f =>
      refine dead_revokeWhere h ht fun x hx => ?_
      rw [hx.familyId]
      exact decide_eq_true hr
    | refreshSession token newToken newSessionId =>
      obtain ⟨p, hp, hfamily, hrevoked, hexpired, hreplaced, hgrace⟩ := hr
      have hact : s.act config (.refreshSession token newToken newSessionId) =
          (s.revokeFamily p.familyId).1 := by
        simp [State.act, State.refreshSession, hp, hrevoked, hexpired, hreplaced,
          State.handleReusedToken, hgrace]
      rw [hact]
      refine dead_revokeWhere h ht fun x hx => ?_
      rw [hx.familyId]
      exact decide_eq_true hfamily.symm
    | revokeAllUserSessions u except =>
      refine dead_revokeWhere h ht fun x hx => ?_
      rw [hx.familyId, hx.userId, hr.1]
      simp [Ne.symm hr.2]
    | createSession _ _ _ _ => cases hr
    | revokeSession _ => cases hr
    | cleanup => cases hr
    | destroy => cases hr
    | advance _ => cases hr
  unfold step at hs
  split at hs
  · cases hs
    exact ⟨List.mem_append_right _ (h.drawn t ht).1, hdead.2⟩
  · cases hs

/-- A token that an action has revoked is never accepted again. -/
theorem refused_of_revokes (h : Inv config s) {t : Session} (ht : t ∈ s.issued) {a : Action}
    (hr : Revokes config s t a) (hs : step config s a = some s') {now : ℕ} {s₃ : State}
    (hlater : (machine config now).Steps anyStep s' s₃) (newToken newSessionId : Text) :
    (s₃.refreshSession config t.token newToken newSessionId).2 = none := by
  have hinv : Inv config s₃ ∧ Dead s₃ t.token := by
    refine hlater.invariant (fun s => Inv config s ∧ Dead s t.token)
      ⟨inv_step h hs, dead_of_revokes h ht hr hs⟩ fun s a s' hi _ hstep => ?_
    exact ⟨inv_step hi.1 hstep, dead_step hi.1 hi.2 hstep⟩
  exact hinv.2.refused newToken newSessionId

end

/-! ## Sessions that are left alone -/

/-- `revokeAllUserSessions` leaves the session alone. -/
def Exempt (userId : Text) (exceptFamilyId : Option Text) (t : Session) : Bool :=
  t.userId ≠ userId || exceptFamilyId = some t.familyId

/-- The same sessions of a kind are stored, and were issued. -/
structure Alike (e : Session → Bool) (s s' : State) : Prop where
  now : s'.now = s.now
  uuids : s'.uuids = s.uuids
  stored : ∀ k, (s'.sessions.get k).filter e = (s.sessions.get k).filter e
  issued : ∀ t, e t = true → (t ∈ s'.issued ↔ t ∈ s.issued)

/-- The kind of a session depends on its user and its family only. -/
def OfOwner (e : Session → Bool) : Prop :=
  ∀ t x : Session, x.userId = t.userId → x.familyId = t.familyId → e x = e t

theorem ofOwner_exempt (userId : Text) (exceptFamilyId : Option Text) :
    OfOwner (Exempt userId exceptFamilyId) := fun t x hu hf => by rw [Exempt, Exempt, hu, hf]

section
variable {config : AuthConfig} {e : Session → Bool} {s s' r r' : State}

theorem Alike.refl (s : State) : Alike e s s := ⟨rfl, rfl, fun _ => rfl, fun _ _ => Iff.rfl⟩

theorem Alike.symm (h : Alike e s s') : Alike e s' s :=
  ⟨h.now.symm, h.uuids.symm, fun k => (h.stored k).symm, fun t ht => (h.issued t ht).symm⟩

theorem Alike.trans (h : Alike e s s') (h' : Alike e s' r) : Alike e s r :=
  ⟨h'.now.trans h.now, h'.uuids.trans h.uuids, fun k => (h'.stored k).trans (h.stored k),
    fun t ht => (h'.issued t ht).trans (h.issued t ht)⟩

/-- Sessions of the kind are changed in one way, whatever else is stored. -/
theorem Alike.maps (h : Alike e s s') {f : Session → Session} (hf : ∀ x, e (f x) = e x)
    (hnow : r.now = s.now) (hnow' : r'.now = s'.now) (huuids : r.uuids = s.uuids)
    (huuids' : r'.uuids = s'.uuids) (hissued : r.issued = s.issued) (hissued' : r'.issued = s'.issued)
    (hget : ∀ k, r.sessions.get k = (s.sessions.get k).map f)
    (hget' : ∀ k, r'.sessions.get k = (s'.sessions.get k).map f) : Alike e r r' := by
  refine ⟨by rw [hnow, hnow', h.now], by rw [huuids, huuids', h.uuids], fun k => ?_,
    by rw [hissued, hissued']; exact h.issued⟩
  have hcomm : ∀ o : Option Session, (o.map f).filter e = (o.filter e).map f := by
    intro o
    cases o with
    | none => rfl
    | some x => simp only [Option.map_some, Option.filter_some, hf]; split <;> rfl
  rw [hget, hget', hcomm, hcomm, h.stored]

theorem Alike.revokeWhere (he : OfOwner e) (h : Alike e s s') (p : Session → Bool) :
    Alike e (s.revokeWhere p).1 (s'.revokeWhere p).1 := by
  refine h.maps (f := fun t => if p t && !t.isRevoked then t.revoke else t) (fun x => ?_) rfl rfl rfl rfl
    rfl rfl (fun k => OMap.get_mapValues ..) fun k => OMap.get_mapValues ..
  split
  · exact he x x.revoke rfl rfl
  · rfl

theorem Alike.revokeSession (he : OfOwner e) (h : Alike e s s') (hi : Inv config s)
    (hi' : Inv config s') (id : Text) : Alike e (s.revokeSession id).1 (s'.revokeSession id).1 := by
  refine h.maps (fun x => ?_) rfl rfl rfl rfl rfl rfl (get_revokeSession hi id) (get_revokeSession hi' id)
  split
  · exact he x x.revoke rfl rfl
  · rfl

theorem Alike.cleanup (h : Alike e s s') : Alike e s.cleanup s'.cleanup := by
  refine ⟨h.now, h.uuids, fun k => ?_, h.issued⟩
  have hcomm : ∀ (o : Option Session) (p : Session → Bool), (o.filter p).filter e = (o.filter e).filter p := by
    intro o p
    rw [Option.filter_filter, Option.filter_filter]
    congr
    funext x
    exact Bool.and_comm _ _
  rw [State.cleanup, State.cleanup, OMap.get_filterValues, OMap.get_filterValues, hcomm, hcomm, h.stored,
    h.now]

/-- The same session is issued. -/
theorem Alike.issue (h : Alike e s s') (n : Session) : Alike e (s.issue n) (s'.issue n) := by
  refine ⟨h.now, h.uuids, fun k => ?_, fun t ht => ?_⟩
  · simp only [State.issue, OMap.get_set]
    split
    · rfl
    · exact h.stored k
  · simp only [State.issue, List.mem_cons]
    exact or_congr_right (h.issued t ht)

/-- A session of another kind is stored under a key. -/
theorem alike_set (s : State) {k : Text} {x : Session} (hx : e x = false)
    (hk : ∀ y, s.sessions.get k = some y → e y = false) :
    Alike e s { s with sessions := s.sessions.set k x } := by
  refine ⟨rfl, rfl, fun k' => ?_, fun _ _ => Iff.rfl⟩
  rw [OMap.get_set]
  split
  · next heq =>
    rw [heq, Option.filter_some, if_neg (by simp [hx])]
    cases hy : s.sessions.get k with
    | none => rfl
    | some y => rw [Option.filter_some, if_neg (by simp [hk y hy])]
  · rfl

/-! ### A refresh -/

/-- A token of another kind does not touch the sessions of this kind. -/
theorem alike_refresh (he : OfOwner e) (h : Inv config s) {token newToken newSessionId : Text}
    (hnew : New s [newToken, newSessionId])
    (hno : ∀ p, s.sessions.get token = some p → e p = false) :
    Alike e s (s.refreshSession config token newToken newSessionId).1 := by
  have hr := refreshes config s token newToken newSessionId
  generalize s.refreshSession config token newToken newSessionId = result at hr ⊢
  cases hr with
  | refused => exact .refl s
  | reused _ _ _ _ _ _ _ _ _ _ => exact .refl s
  | theft p hp _ _ _ _ =>
    refine ⟨rfl, rfl, fun k => ?_, fun _ _ => Iff.rfl⟩
    rw [State.revokeFamily, State.revokeWhere, OMap.get_mapValues]
    cases hx : s.sessions.get k with
    | none => rfl
    | some x =>
      rw [Option.map_some]
      split
      · next hfamily =>
        -- All sessions of a family are of the same user.
        have hfamily : x.familyId = p.familyId := by simpa using (Bool.and_eq_true_iff.mp hfamily).1
        obtain ⟨t, ht, -, hstands⟩ := h.stored hx
        obtain ⟨t', ht', -, hstands'⟩ := h.stored hp
        have huser : x.userId = p.userId := by
          rw [hstands.userId, hstands'.userId]
          exact h.owner t ht t' ht' (by rw [← hstands.familyId, ← hstands'.familyId, hfamily])
        have hother : e x = false := (he p x huser hfamily).trans (hno p hp)
        rw [Option.filter_some, Option.filter_some, he x x.revoke rfl rfl, hother]
        rfl
      · rfl
  | rotated p hp _ _ _ =>
    have hother := hno p hp
    have hmark := @alike_set e s p.token (p.replace newToken s.now)
      ((he p (p.replace newToken s.now) rfl rfl).trans hother) fun y hy => by
        rw [h.token hp] at hy
        exact hno y hy
    refine hmark.trans ?_
    have hnone : s.sessions.get newToken = none := by
      by_contra hsome
      obtain ⟨y, hy⟩ := Option.ne_none_iff_exists'.mp hsome
      obtain ⟨t, ht, rfl, -⟩ := h.stored hy
      exact (hnew.2 _ (List.mem_cons_self ..)).1 (h.drawn t ht).1
    have hkind : e ⟨newSessionId, p.userId, p.familyId, newToken, s.expiration config, false, none,
        none⟩ = false :=
      (he p ⟨newSessionId, p.userId, p.familyId, newToken, s.expiration config, false, none, none⟩ rfl
        rfl).trans hother
    have hfresh := alike_set (e := e)
      { s with sessions := s.sessions.set p.token (p.replace newToken s.now) } (k := newToken)
      hkind fun y hy => by
        rw [OMap.get_set] at hy
        split at hy
        · cases hy
          exact (he p (p.replace newToken s.now) rfl rfl).trans hother
        · rw [hnone] at hy
          cases hy
    refine ⟨rfl, rfl, hfresh.stored, fun t ht => ?_⟩
    refine ⟨fun hin => ?_, fun hin => List.mem_cons_of_mem _ hin⟩
    rcases List.mem_cons.mp hin with rfl | hin
    · rw [hkind] at ht
      cases ht
    · exact hin

theorem Alike.get (h : Alike e s s') {k : Text} {p : Session} (hp : s.sessions.get k = some p)
    (hep : e p = true) : s'.sessions.get k = some p := by
  have hstored := h.stored k
  rw [hp, Option.filter_some, if_pos hep] at hstored
  exact (Option.filter_eq_some_iff.mp hstored).1

/-- A token of this kind. -/
theorem Alike.refresh (he : OfOwner e) (h : Alike e s s') {token : Text} {p : Session}
    (hp : s.sessions.get token = some p) (hep : e p = true) (newToken newSessionId : Text) :
    Alike e (s.refreshSession config token newToken newSessionId).1
      (s'.refreshSession config token newToken newSessionId).1 := by
  rw [State.refreshSession, State.refreshSession, hp, h.get hp hep, h.now]
  dsimp only
  split
  · exact h
  · split
    · exact h
    · split
      · rw [State.handleReusedToken, State.handleReusedToken, h.now]
        split
        · exact h.revokeWhere he _
        · exact h
      · have hmark : Alike e
            { s with sessions := s.sessions.set p.token (p.replace newToken s.now) }
            { s' with sessions := s'.sessions.set p.token (p.replace newToken s'.now) } := by
          refine ⟨h.now, h.uuids, fun k => ?_, h.issued⟩
          rw [OMap.get_set, OMap.get_set, h.now]
          split
          · rfl
          · exact h.stored k
        have hexp : s'.expiration config = s.expiration config := by
          rw [State.expiration, State.expiration, h.now]
        dsimp only [State.rotateSession]
        rw [hexp]
        exact hmark.issue _

/-! ### Two runs with the same operations -/

/-- Both runs go on, or none does. -/
theorem Alike.step (he : OfOwner e) (h : Alike e s s') (hi : Inv config s) (hi' : Inv config s')
    {a : Action} (hs : step config s a = some r) :
    ∃ r', SessionManager.step config s' a = some r' ∧ Alike e r r' := by
  unfold SessionManager.step at hs
  split at hs
  · next hnew =>
    cases hs
    have hnew' : New s' a.draws := ⟨hnew.1, fun id hid => by rw [h.uuids]; exact hnew.2 id hid⟩
    refine ⟨_, if_pos hnew', ?_⟩
    suffices hact : Alike e (s.act config a) (s'.act config a) from
      ⟨hact.now, by rw [h.uuids], hact.stored, hact.issued⟩
    cases a with
    | createSession userId familyId token sessionId =>
      simp only [State.act, State.createSession]
      rw [show s'.expiration config = s.expiration config by
        rw [State.expiration, State.expiration, h.now]]
      exact h.issue _
    | refreshSession token newToken newSessionId =>
      by_cases hkind : ∃ p, s.sessions.get token = some p ∧ e p = true
      · obtain ⟨p, hp, hep⟩ := hkind
        exact h.refresh he hp hep newToken newSessionId
      · have hno : ∀ p, s.sessions.get token = some p → e p = false := fun p hp => by
          by_contra hep
          exact hkind ⟨p, hp, by simpa using hep⟩
        have hno' : ∀ p, s'.sessions.get token = some p → e p = false := fun p hp => by
          by_contra hep
          exact hkind ⟨p, h.symm.get hp (by simpa using hep), by simpa using hep⟩
        exact (alike_refresh he hi hnew hno).symm.trans (h.trans (alike_refresh he hi' hnew' hno'))
    | revokeSession id => exact h.revokeSession he hi hi' id
    | revokeFamily f => exact h.revokeWhere he _
    | revokeAllUserSessions u except => exact h.revokeWhere he _
    | cleanup => exact h.cleanup
    | destroy => exact ⟨h.now, h.uuids, fun _ => rfl, h.issued⟩
    | advance ms =>
      refine ⟨?_, h.uuids, h.stored, h.issued⟩
      simp only [State.act, State.advance, h.now]
  · cases hs

/-- What is stored for a session of the kind is the same in both runs. -/
theorem Alike.get_eq (he : OfOwner e) (h : Alike e s s') (hi : Inv config s) (hi' : Inv config s')
    {t : Session} (ht : t ∈ s.issued) (het : e t = true) :
    s'.sessions.get t.token = s.sessions.get t.token := by
  have ht' : t ∈ s'.issued := (h.issued t het).mpr ht
  cases hx : s.sessions.get t.token with
  | some x =>
    have hstands := stands_of_token hi ht hx
    exact h.get hx ((he t x hstands.userId hstands.familyId).trans het)
  | none =>
    cases hx' : s'.sessions.get t.token with
    | none => rfl
    | some x =>
      have hstands := stands_of_token hi' ht' hx'
      have hsome := h.symm.get hx' ((he t x hstands.userId hstands.familyId).trans het)
      rw [hx] at hsome
      cases hsome

/-- A token of the kind is answered in the same way. -/
theorem Alike.refresh_result (he : OfOwner e) (h : Alike e s s') (hi : Inv config s)
    (hi' : Inv config s') {t : Session} (ht : t ∈ s.issued) (het : e t = true)
    (newToken newSessionId : Text) :
    (s'.refreshSession config t.token newToken newSessionId).2 =
      (s.refreshSession config t.token newToken newSessionId).2 := by
  have hget := h.get_eq he hi hi' ht het
  have hbuild : ∀ token userId id,
      s'.buildTokenPair config token userId id = s.buildTokenPair config token userId id :=
    fun token userId id => by rw [State.buildTokenPair, State.buildTokenPair, h.now]
  rw [State.refreshSession, State.refreshSession, hget, h.now]
  cases hp : s.sessions.get t.token with
  | none => rfl
  | some p =>
    have hstands := stands_of_token hi ht hp
    have hbind : p.replacedBy.bind s'.sessions.get = p.replacedBy.bind s.sessions.get := by
      cases hb : p.replacedBy with
      | none => rfl
      | some b =>
        obtain ⟨n, hn, rfl, huser, hfamily, -⟩ := hi.replaced hp hb
        refine h.get_eq he hi hi' hn ((he t n ?_ ?_).trans het)
        · rw [huser, hstands.userId]
        · rw [hfamily, hstands.familyId]
    dsimp only
    split
    · rfl
    · split
      · rfl
      · split
        · rw [State.handleReusedToken, State.handleReusedToken, h.now, hbind]
          split
          · rfl
          · simp only [hbuild]
        · simp only [State.rotateSession, hbuild]

theorem Alike.exec (he : OfOwner e) {now : ℕ} : ∀ (as : List Action) {s s' : State},
    Alike e s s' → Inv config s → Inv config s' →
    (∃ r r', (machine config now).exec anyStep s as = some r ∧
      (machine config now).exec anyStep s' as = some r' ∧ Alike e r r' ∧ Inv config r ∧ Inv config r') ∨
    (machine config now).exec anyStep s as = none ∧ (machine config now).exec anyStep s' as = none
  | [], s, s', h, hi, hi' => .inl ⟨s, s', rfl, rfl, h, hi, hi'⟩
  | a :: as, s, s', h, hi, hi' => by
    simp only [Machine.exec, if_pos (show anyStep _ a from trivial)]
    change (∃ r r', (SessionManager.step config s a).bind _ = some r ∧
      (SessionManager.step config s' a).bind _ = some r' ∧ _) ∨ (SessionManager.step config s a).bind _ = none ∧
      (SessionManager.step config s' a).bind _ = none
    cases hs : SessionManager.step config s a with
    | some r =>
      obtain ⟨r', hs', hr⟩ := h.step he hi hi' hs
      rw [hs']
      exact Alike.exec he as hr (inv_step hi hs) (inv_step hi' hs')
    | none =>
      cases hs' : SessionManager.step config s' a with
      | none => exact .inr ⟨rfl, rfl⟩
      | some r' =>
        obtain ⟨r, hr, -⟩ := h.symm.step he hi' hi hs'
        rw [hs] at hr
        cases hr

/-- The call leaves the sessions alone that it is not about. -/
theorem alike_revokeAll (h : Inv config s) {userId : Text} {exceptFamilyId : Option Text}
    (hs : SessionManager.step config s (.revokeAllUserSessions userId exceptFamilyId) = some s') :
    Alike (Exempt userId exceptFamilyId) s s' := by
  unfold SessionManager.step at hs
  split at hs
  · cases hs
    refine ⟨rfl, rfl, fun k => ?_, fun _ _ => Iff.rfl⟩
    change ((s.sessions.mapValues _).get k).filter _ = _
    rw [OMap.get_mapValues]
    cases hx : s.sessions.get k with
    | none => rfl
    | some x =>
      rw [Option.map_some]
      split
      · next hrevoked =>
        -- A session that is revoked here is not exempt.
        obtain ⟨huser, hfamily⟩ := Bool.and_eq_true_iff.mp (Bool.and_eq_true_iff.mp hrevoked).1
        have hne : exceptFamilyId ≠ some x.familyId := by
          rintro rfl
          obtain ⟨t, ht, -, hstands⟩ := h.stored hx
          have hnonempty : x.familyId ≠ [] := fun hnil =>
            h.nonempty (hnil ▸ hstands.familyId ▸ (h.drawn t ht).2.2)
          simp [hnonempty] at hfamily
        have hother : Exempt userId exceptFamilyId x = false := by
          simp [Exempt, hne, (decide_eq_true_eq.mp huser)]
        rw [Option.filter_some, Option.filter_some, ofOwner_exempt _ _ x x.revoke rfl rfl, hother]
        rfl
      · rfl
  · cases hs

end

/-- **Revocation is final.** In every run: once a family is revoked, be it by
`revokeFamily` or because a rotated token has been presented outside the grace
period, no token issued in it before is ever accepted again; the same holds of the
tokens of a user behind `revokeAllUserSessions`, but for those of the family that
is excepted. The tokens of that family and of other users, whenever they are
issued, are answered as if the call had not happened, whatever operations follow. -/
theorem revocation_is_final {config : AuthConfig} {now : ℕ} {s : State}
    (h : (machine config now).Reach anyStep s) :
    (∀ a s' t, step config s a = some s' → t ∈ s.issued → Revokes config s t a →
      ∀ s₃, (machine config now).Steps anyStep s' s₃ → ∀ newToken newSessionId,
        (s₃.refreshSession config t.token newToken newSessionId).2 = none) ∧
    ∀ userId exceptFamilyId s', step config s (.revokeAllUserSessions userId exceptFamilyId) = some s' →
      ∀ as : List Action,
        (∃ r r', (machine config now).exec anyStep s as = some r ∧
          (machine config now).exec anyStep s' as = some r' ∧
          ∀ t, t.userId ≠ userId ∨ exceptFamilyId = some t.familyId → t ∈ r.issued ∨ t ∈ r'.issued →
            ∀ newToken newSessionId, (r'.refreshSession config t.token newToken newSessionId).2 =
              (r.refreshSession config t.token newToken newSessionId).2) ∨
        (machine config now).exec anyStep s as = none ∧ (machine config now).exec anyStep s' as = none := by
  have hinv := inv_of_reach h
  refine ⟨fun a s' t hs ht hr s₃ hlater newToken newSessionId =>
    refused_of_revokes hinv ht hr hs hlater newToken newSessionId, fun userId exceptFamilyId s' hs as => ?_⟩
  have he := ofOwner_exempt userId exceptFamilyId
  refine (Alike.exec he as (alike_revokeAll hinv hs) hinv (inv_step hinv hs)).imp_left ?_
  rintro ⟨r, r', hr, hr', halike, hi, hi'⟩
  refine ⟨r, r', hr, hr', fun t hexempt hissued newToken newSessionId => ?_⟩
  have het : Exempt userId exceptFamilyId t = true := by simpa [Exempt] using hexempt
  have ht : t ∈ r.issued := hissued.elim id (halike.issued t het).mp
  exact halike.refresh_result he hi hi' ht het newToken newSessionId

/-- The first token is presented once more behind the grace period; the second one is
refused from then on. -/
theorem revocation_is_final_reused : ∃ s s' p t, (machine defaults 1000).Reach anyStep s ∧
    step defaults s (.refreshSession (js "a") (js "c") (js "3")) = some s' ∧
    s.sessions.get (js "a") = some p ∧ p.outsideGrace defaults s.now = true ∧
    t ∈ s.issued ∧ t.token = js "b" ∧
    (s.refreshSession defaults (js "b") (js "d") (js "4")).2.isSome = true ∧
    (s'.refreshSession defaults (js "b") (js "d") (js "4")).2 = none := by
  obtain ⟨s, hs, hP⟩ := (machine defaults 1000).exists_of_exec anyStep (init 1000)
    (rotatedOnce ++ [.advance 16000])
    (fun s => decide (New s [js "c", js "3"]) &&
      (s.refreshSession defaults (js "b") (js "d") (js "4")).2.isSome &&
      (s.issued.any fun t => t.token = js "b" && t.familyId = js "f") &&
      (s.sessions.get (js "a")).any fun p => p.familyId = js "f" && p.isRevoked = false &&
        p.isExpired s.now = false && p.isReplaced && p.outsideGrace defaults s.now)
    (by decide +kernel)
  simp only [Bool.and_eq_true, decide_eq_true_eq, Option.any_eq_true, List.any_eq_true] at hP
  obtain ⟨⟨⟨hnew, hsome⟩, t, ht, htoken, hfamily⟩, p, hp, ⟨⟨⟨hf, hrevoked⟩, hexpired⟩, hreplaced⟩, hgrace⟩ := hP
  have hstep : step defaults s (.refreshSession (js "a") (js "c") (js "3")) = some _ := if_pos hnew
  have hrefused := (revocation_is_final hs).1 _ _ t hstep ht
    ⟨p, hp, hf.trans hfamily.symm, hrevoked, hexpired, hreplaced, hgrace⟩ _ .refl (js "d") (js "4")
  rw [htoken] at hrefused
  exact ⟨s, _, p, t, hs, hstep, hp, hgrace, ht, htoken, hsome, hrefused⟩

end TypeFerry.Auth.Revocation
