import TypeFerry.Auth.SessionManager
import TypeFerry.Lib.Chains

/-! # The chain of rotations

In a family each rotation puts a session behind the one that it replaces. Revocations and
the cleanup may take sessions out of the chain, from any place; its head, the session that
is not replaced, stays the only one. -/
namespace TypeFerry.Auth.Rotation
open TypeFerry.Lib.Numeral TypeFerry.Lib.OrderedMap TypeFerry.Lib.Runs TypeFerry.Lib.Chains
open TypeFerry.Auth.SessionManager

/-- The stored session that replaced `x`. -/
def next (s : State) (x : Session) : Option Session := x.replacedBy.bind s.sessions.get

/-- What the stored sessions look like. -/
structure ChainShape (s : State) : Prop where
  key : ∀ k x, s.sessions.get k = some x → x.token = k
  /-- one head for each family -/
  head : ∀ k x k' x', s.sessions.get k = some x → s.sessions.get k' = some x' → x.familyId = x'.familyId →
    x.isReplaced = false → x'.isReplaced = false → x = x'
  /-- the links never come back to a session -/
  acyclic : ∀ k x n m y z, s.sessions.get k = some x → n < m → follow (next s) n x = some y →
    follow (next s) m x = some z → y.token ≠ z.token
  /-- the links lead to the head, or to a session that is no longer stored -/
  reaches : ∀ k x, s.sessions.get k = some x → ∃ n y, follow (next s) n x = some y ∧
    s.sessions.get y.token = some y ∧ y.familyId = x.familyId ∧
    (y.isReplaced = false ∨ ∃ b, y.replacedBy = some b ∧ s.sessions.get b = none)
  owner : ∀ k x k' x', s.sessions.get k = some x → s.sessions.get k' = some x' →
    x.familyId = x'.familyId → x.userId = x'.userId
  /-- the live heads of the user's families are listed, one for each family at most -/
  listed : ∀ u x, x ∈ s.getUserSessions u ↔ s.sessions.get x.token = some x ∧ x.userId = u ∧
    x.isRevoked = false ∧ x.isReplaced = false ∧ (s.now : ℚ) / 1000 < x.expiration
  once : ∀ u, ((s.getUserSessions u).map (·.familyId)).Nodup

/-! ## What every operation keeps -/

/-- How recently the session was issued that had a token. -/
def age (s : State) (token : Text) : ℕ := (s.issued.map (·.token)).idxOf token

structure Chained (s : State) : Prop where
  head : ∀ {k x k' x'}, s.sessions.get k = some x → s.sessions.get k' = some x' →
    x.familyId = x'.familyId → x.replacedBy = none → x'.replacedBy = none → k = k'
  later : ∀ {k x b}, s.sessions.get k = some x → x.replacedBy = some b → age s b < age s k

section
variable {config : AuthConfig} {s s' : State}

theorem Chained.thins (h : Chained s) (ht : Thins s s') : Chained s' := by
  have hreplaced : ∀ {k x}, s'.sessions.get k = some x → ∃ y, s.sessions.get k = some y ∧
      x.familyId = y.familyId ∧ x.replacedBy = y.replacedBy := by
    intro k x hx
    obtain ⟨y, hy, rfl | rfl⟩ := ht.get hx
    · exact ⟨x, hy, rfl, rfl⟩
    · exact ⟨y, hy, rfl, rfl⟩
  refine ⟨fun {k x k' x'} hx hx' hf hn hn' => ?_, fun {k x b} hx hb => ?_⟩
  · obtain ⟨y, hy, hfy, hry⟩ := hreplaced hx
    obtain ⟨y', hy', hfy', hry'⟩ := hreplaced hx'
    exact h.head hy hy' (hfy.symm.trans (hf.trans hfy')) (hry.symm.trans hn) (hry'.symm.trans hn')
  · obtain ⟨y, hy, -, hry⟩ := hreplaced hx
    rw [age, age, ht.issued]
    exact h.later hy (hry.symm.trans hb)

/-- A token that was handed out earlier is older now. -/
theorem age_issue {n : Session} (hissued : s'.issued = n :: s.issued) {token : Text} (hne : token ≠ n.token) :
    age s' token = age s token + 1 := by
  rw [age, hissued, List.map_cons, List.idxOf_cons_ne _ (Ne.symm hne)]
  rfl

theorem age_new {n : Session} (hissued : s'.issued = n :: s.issued) : age s' n.token = 0 := by
  rw [age, hissued, List.map_cons, List.idxOf_cons_self]

/-- A new token is none of those that are stored or that replace one. -/
theorem ne_new (h : Inv config s) {ds : List Text} (hnew : New s ds) {token : Text} (hin : token ∈ ds)
    {k : Text} {x : Session} (hx : s.sessions.get k = some x) :
    k ≠ token ∧ x.familyId ≠ token ∧ ∀ b, x.replacedBy = some b → b ≠ token := by
  have hfresh := (hnew.2 token hin).1
  obtain ⟨t, ht, hk, hstands⟩ := h.stored hx
  obtain ⟨htoken, -, hfamily⟩ := h.drawn t ht
  refine ⟨?_, ?_, fun b hb => ?_⟩
  · rintro rfl
    exact hfresh (hk ▸ htoken)
  · rintro rfl
    exact hfresh (hstands.familyId ▸ hfamily)
  · rintro rfl
    obtain ⟨t', ht', rfl, -⟩ := h.replaced hx hb
    exact hfresh (h.drawn t' ht').1

theorem Chained.create (hi : Inv config s) (h : Chained s) {n : Session} {ds : List Text} (hnew : New s ds)
    (htoken : n.token ∈ ds) (hfamily : n.familyId ∈ ds) (hnone : n.replacedBy = none) :
    Chained (s.issue n) := by
  have hissued : (s.issue n).issued = n :: s.issued := rfl
  have hget : ∀ k, (s.issue n).sessions.get k = if k = n.token then some n else s.sessions.get k :=
    fun k => OMap.get_set s.sessions n.token k n
  refine ⟨fun {k x k' x'} hx hx' hf hn hn' => ?_, fun {k x b} hx hb => ?_⟩
  · rw [hget] at hx hx'
    split at hx <;> split at hx'
    · next hk hk' => exact hk.trans hk'.symm
    · cases hx
      exact absurd hf.symm (ne_new hi hnew hfamily hx').2.1
    · cases hx'
      exact absurd hf (ne_new hi hnew hfamily hx).2.1
    · exact h.head hx hx' hf hn hn'
  · rw [hget] at hx
    split at hx
    · cases hx
      rw [hnone] at hb
      cases hb
    · obtain ⟨hk, -, hb'⟩ := ne_new hi hnew htoken hx
      rw [age_issue hissued hk, age_issue hissued (hb' b hb)]
      exact Nat.add_lt_add_right (h.later hx hb) 1

/-- The head is replaced, and the session that replaces it is the new head. -/
theorem Chained.rotate (hi : Inv config s) (h : Chained s) {p : Session} {k₀ newToken newSessionId : Text}
    {ds : List Text} (hnew : New s ds) (htoken : newToken ∈ ds) (hp : s.sessions.get k₀ = some p)
    (hno : p.isReplaced = false) : Chained (s.rotateSession config p newToken newSessionId).1 := by
  have hissued : (s.rotateSession config p newToken newSessionId).1.issued =
      ⟨newSessionId, p.userId, p.familyId, newToken, s.expiration config, false, none, none⟩ :: s.issued := rfl
  have hk₀ : p.token = k₀ := hi.token hp
  have hnone : p.replacedBy = none := hi.replacedBy_none hp hno
  -- Another session of the family is replaced.
  have hother : ∀ {k x}, s.sessions.get k = some x → x.familyId = p.familyId → k ≠ k₀ →
      x.replacedBy ≠ none := fun hx hf hne hn => hne (h.head hx hp hf hn hnone)
  refine ⟨fun {k x k' x'} hx hx' hf hn hn' => ?_, fun {k x b} hx hb => ?_⟩
  · rw [get_rotateSession] at hx hx'
    split at hx <;> split at hx'
    · next hk hk' => exact hk.trans hk'.symm
    · cases hx
      split at hx'
      · cases hx'
        cases hn'
      · next hne => exact absurd hn' (hother hx' hf.symm (hk₀ ▸ hne))
    · cases hx'
      split at hx
      · cases hx
        cases hn
      · next hne => exact absurd hn (hother hx hf (hk₀ ▸ hne))
    · split at hx
      · cases hx
        cases hn
      · split at hx'
        · cases hx'
          cases hn'
        · exact h.head hx hx' hf hn hn'
  · rw [get_rotateSession] at hx
    split at hx
    · cases hx
      cases hb
    · next hk =>
      split at hx
      · next hkp =>
        cases hx
        cases hb
        rw [age_issue hissued hk]
        exact (age_new hissued).trans_lt (Nat.succ_pos _)
      · obtain ⟨-, -, hb'⟩ := ne_new hi hnew htoken hx
        rw [age_issue hissued hk, age_issue hissued (hb' b hb)]
        exact Nat.add_lt_add_right (h.later hx hb) 1

theorem Chained.step (hi : Inv config s) (h : Chained s) {a : Action} (hs : step config s a = some s') :
    Chained s' := by
  unfold SessionManager.step at hs
  split at hs
  · next hnew =>
    cases hs
    have hact : Chained (s.act config a) := by
      cases a with
      | createSession userId familyId token sessionId =>
        exact h.create hi hnew (by simp [Action.draws]) (by simp [Action.draws]) rfl
      | refreshSession token newToken newSessionId =>
        have hr := refreshes config s token newToken newSessionId
        simp only [State.act]
        generalize s.refreshSession config token newToken newSessionId = result at hr ⊢
        cases hr with
        | refused => exact h
        | theft p hp hrevoked hexpired hreplaced hgrace => exact h.thins (thins_revokeWhere s _)
        | reused p next b hp hrevoked hexpired hreplaced hgrace hnext hlive => exact h
        | rotated p hp hrevoked hexpired hreplaced =>
          exact h.rotate hi hnew (by simp [Action.draws]) hp hreplaced
      | revokeSession id => exact h.thins (thins_revokeSession hi id)
      | revokeFamily f => exact h.thins (thins_revokeWhere s _)
      | revokeAllUserSessions u except => exact h.thins (thins_revokeWhere s _)
      | cleanup => exact h.thins (thins_cleanup s)
      | destroy => exact h.thins (thins_destroy s)
      | advance ms => exact h.thins (thins_advance s ms)
    exact ⟨hact.head, hact.later⟩
  · cases hs

theorem chained_of_reach {now : ℕ} (h : (machine config now).Reach anyStep s) : Inv config s ∧ Chained s :=
  h.invariant (fun s => Inv config s ∧ Chained s)
    ⟨inv_init config now, ⟨fun hx => (by cases hx), fun hx => (by cases hx)⟩⟩
    fun _ _ _ hi _ hs => ⟨inv_step hi.1 hs, hi.2.step hi.1 hs⟩

/-! ## The chain -/

/-- Every link leads to a stored session of the family that was issued later. -/
theorem descends (hi : Inv config s) (h : Chained s) (family : Text) :
    Descends (next s) (fun x => s.sessions.get x.token = some x ∧ x.familyId = family)
      fun x => age s x.token := by
  rintro x y ⟨hx, rfl⟩ hy
  obtain ⟨b, hb, hget⟩ := Option.bind_eq_some_iff.mp hy
  have htoken : y.token = b := hi.token hget
  refine ⟨⟨by rw [htoken]; exact hget, (hi.next hx hb hget).2.1⟩, ?_⟩
  show age s y.token < age s x.token
  rw [htoken]
  exact h.later hx hb

theorem isReplaced_iff (hi : Inv config s) {k : Text} {x : Session} (hx : s.sessions.get k = some x) :
    x.isReplaced = false ↔ x.replacedBy = none := by
  refine ⟨hi.replacedBy_none hx, fun hnone => ?_⟩
  rw [Session.isReplaced, hnone]
  rfl

theorem owner (hi : Inv config s) {k k' : Text} {x x' : Session} (hx : s.sessions.get k = some x)
    (hx' : s.sessions.get k' = some x') (hf : x.familyId = x'.familyId) : x.userId = x'.userId := by
  obtain ⟨t, ht, -, hstands⟩ := hi.stored hx
  obtain ⟨t', ht', -, hstands'⟩ := hi.stored hx'
  have hfamily : t.familyId = t'.familyId := by rw [← hstands.familyId, ← hstands'.familyId, hf]
  rw [hstands.userId, hstands'.userId, hi.owner t ht t' ht' hfamily]

theorem head_unique (hi : Inv config s) (h : Chained s) {k k' : Text} {x x' : Session}
    (hx : s.sessions.get k = some x) (hx' : s.sessions.get k' = some x') (hf : x.familyId = x'.familyId)
    (hn : x.isReplaced = false) (hn' : x'.isReplaced = false) : k = k' :=
  h.head hx hx' hf ((isReplaced_iff hi hx).mp hn) ((isReplaced_iff hi hx').mp hn')

theorem mem_getUserSessions (hi : Inv config s) {u : Text} {x : Session} :
    x ∈ s.getUserSessions u ↔ s.sessions.get x.token = some x ∧ x.userId = u ∧
      x.isRevoked = false ∧ x.isReplaced = false ∧ (s.now : ℚ) / 1000 < x.expiration := by
  have hstored : x ∈ s.sessions.values ↔ s.sessions.get x.token = some x := by
    rw [OMap.mem_values]
    refine ⟨fun ⟨k, hk⟩ => ?_, fun hk => ⟨_, hk⟩⟩
    rw [hi.token hk]
    exact hk
  simp only [State.getUserSessions, List.mem_filter, hstored, Bool.and_eq_true, decide_eq_true_eq,
    Bool.not_eq_true']
  tauto

/-- No two sessions that are listed are of one family. -/
theorem nodup_families (hi : Inv config s) (h : Chained s) (u : Text) :
    ((s.getUserSessions u).map (·.familyId)).Nodup := by
  have hkeys : s.sessions.entries.Pairwise fun e e' => e.1 ≠ e'.1 := List.pairwise_map.mp s.sessions.nodup
  rw [State.getUserSessions, OMap.values, List.filter_map, List.map_map, List.Nodup, List.pairwise_map]
  refine (hkeys.filter _).imp_of_mem fun {e e'} he he' hne heq => hne ?_
  obtain ⟨hin, hlive⟩ := List.mem_filter.mp he
  obtain ⟨hin', hlive'⟩ := List.mem_filter.mp he'
  simp only [Function.comp_apply, Bool.and_eq_true, Bool.not_eq_true'] at hlive hlive'
  exact head_unique hi h (OMap.get_eq_some.mpr hin) (OMap.get_eq_some.mpr hin') heq hlive.1.2 hlive'.1.2

/-- **The chain of rotations.** In every state of every run a family has one head at most, and all
its sessions belong to one user; the links from any session lead, without coming back, to
that head or to a session that has been deleted; every session stands under its token; and
`getUserSessions` lists the heads of the user's families that are neither expired nor revoked,
one for each family at most. -/
theorem rotation_chain {now : ℕ} (h : (machine config now).Reach anyStep s) : ChainShape s := by
  obtain ⟨hi, hc⟩ := chained_of_reach h
  have hstored : ∀ {k x}, s.sessions.get k = some x → s.sessions.get x.token = some x := by
    intro k x hx
    rw [hi.token hx]
    exact hx
  refine ⟨fun k x => hi.token, fun k x k' x' hx hx' hf hn hn' => ?_,
    fun k x n m y z hx hnm hy hz heq => ?_, fun k x hx => ?_, fun k x k' x' => owner hi,
    fun u x => mem_getUserSessions hi, nodup_families hi hc⟩
  · obtain rfl := head_unique hi hc hx hx' hf hn hn'
    exact Option.some.inj (hx.symm.trans hx')
  · have hlt := (descends hi hc x.familyId).lt ⟨hstored hx, rfl⟩ hnm hy hz
    rw [heq] at hlt
    exact Nat.lt_irrefl _ hlt
  · obtain ⟨n, y, hy, ⟨hget, hfamily⟩, hend⟩ :=
      (descends hi hc x.familyId).ends (age s x.token) ⟨hstored hx, rfl⟩ (Nat.le_refl _)
    refine ⟨n, y, hy, hget, hfamily, ?_⟩
    cases hb : y.replacedBy with
    | none => exact .inl ((isReplaced_iff hi hget).mpr hb)
    | some b =>
      refine .inr ⟨b, rfl, ?_⟩
      rw [next, hb] at hend
      exact hend

end

/-- A token is rotated twice, and the session between is revoked and deleted. The first session's
link leads to none, and the third one is listed. -/
theorem rotation_chain_broken : ∃ s, (machine defaults 1000).Reach anyStep s ∧ ChainShape s ∧
    s.sessions.size = 2 := by
  obtain ⟨s, hs, hP⟩ := (machine defaults 1000).exists_of_exec anyStep (init 1000)
    (rotatedOnce ++ [.refreshSession (js "b") (js "c") (js "3"), .revokeSession (js "2"), .cleanup])
    (fun s => s.sessions.size = 2) (by decide +kernel)
  exact ⟨s, hs, rotation_chain hs, by simpa using hP⟩

end TypeFerry.Auth.Rotation
