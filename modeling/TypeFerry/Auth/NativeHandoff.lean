import TypeFerry.Lib.Entries
import TypeFerry.Lib.Numeral
import TypeFerry.Lib.OrderedMap
import TypeFerry.Lib.Runs

/-! # The handoff from the browser to the native application

`NativeAuthHandoff`. The store of the grants is the application's own: what it has to do is in `Contract`, which says
what the documentation of `NativeAuthGrantStore` says. Both `authorize` and `exchange` wait for it. -/
namespace TypeFerry.Auth.NativeHandoff
open TypeFerry.Lib.Entries TypeFerry.Lib.Numeral TypeFerry.Lib.OrderedMap TypeFerry.Lib.Runs

variable {T σ : Type}

structure NativeAuthGrant (T : Type) where
  codeHash : Text
  challenge : Text
  redirectUri : Text
  /-- In milliseconds. -/
  expiresAt : ℕ
  value : T
  deriving DecidableEq

structure NativeAuthGrantConsume where
  codeHash : Text
  challenge : Text
  redirectUri : Text
  now : ℕ

structure NativeAuthGrantStore (T σ : Type) where
  create : σ → NativeAuthGrant T → σ
  consume : σ → NativeAuthGrantConsume → σ × Option T
  purge : σ → ℕ → σ

/-- All fields match, and the grant has not expired. -/
structure Matches (grant : NativeAuthGrant T) (request : NativeAuthGrantConsume) : Prop where
  codeHash : grant.codeHash = request.codeHash
  challenge : grant.challenge = request.challenge
  redirectUri : grant.redirectUri = request.redirectUri
  expiresAt : request.now < grant.expiresAt

/-- What a store promises, with `Holds` for the grants in it. A grant is known by the hash of its code. -/
structure Contract (store : NativeAuthGrantStore T σ) (Holds : σ → NativeAuthGrant T → Prop) : Prop where
  created (s : σ) (grant : NativeAuthGrant T) : Holds (store.create s grant) grant
  old (s : σ) (grant other : NativeAuthGrant T) : Holds (store.create s grant) other → other = grant ∨ Holds s other
  kept (s : σ) (grant other : NativeAuthGrant T) : Holds s other → other.codeHash ≠ grant.codeHash →
    Holds (store.create s grant) other
  found (s : σ) (request : NativeAuthGrantConsume) (value : T) : (store.consume s request).2 = some value →
    ∃ grant, Holds s grant ∧ Matches grant request ∧ grant.value = value ∧
      ∀ other, Holds (store.consume s request).1 other ↔ Holds s other ∧ other ≠ grant
  /-- Failed verification leaves the grants intact. -/
  missing (s : σ) (request : NativeAuthGrantConsume) : (store.consume s request).2 = none →
    ∀ grant, (Holds (store.consume s request).1 grant ↔ Holds s grant) ∧ (Holds s grant → ¬ Matches grant request)
  purged (s : σ) (now : ℕ) (grant : NativeAuthGrant T) : Holds (store.purge s now) grant → Holds s grant
  unexpired (s : σ) (now : ℕ) (grant : NativeAuthGrant T) : Holds s grant → now < grant.expiresAt →
    Holds (store.purge s now) grant

/-- The random codes and the digests. -/
structure Crypto where
  randomCode : ℕ → Text
  /-- `createHash('sha256').update(code).digest('hex')` -/
  hex : Text → Text
  /-- `createHash('sha256').update(verifier).digest('base64url')` -/
  base64url : Text → Text

/-! ## The two methods -/

def GRANT_LIFETIME_MS : ℕ := 120000

def isLetterOrDigit (c : UInt16) : Bool :=
  (48 ≤ c && c ≤ 57) || (65 ≤ c && c ≤ 90) || (97 ≤ c && c ≤ 122)

/-- `/^[A-Za-z0-9_-]{43}$/` -/
def CODE_PATTERN (text : Text) : Bool :=
  text.length = 43 && text.all fun c => isLetterOrDigit c || c = 95 || c = 45

/-- `/^[A-Za-z0-9._~-]{43,128}$/` -/
def VERIFIER_PATTERN (text : Text) : Bool :=
  43 ≤ text.length && text.length ≤ 128 &&
    text.all fun c => isLetterOrDigit c || c = 46 || c = 95 || c = 126 || c = 45

structure AuthorizeRequest (T : Type) where
  value : T
  challenge : Text
  redirectUri : Text
  state : Text

structure ExchangeRequest where
  code : Text
  verifier : Text
  redirectUri : Text

/-- A call of `authorize`: its grant, and whether the store has it. -/
structure Authorization (T : Type) where
  grant : NativeAuthGrant T
  stored : Bool

/-- A call of `exchange`. It waits for the store, has failed or has returned a value. -/
structure Exchange (T : Type) where
  request : ExchangeRequest
  began : ℕ
  result : Option (Option T)

structure State (T σ : Type) where
  now : ℕ
  store : σ
  authorizations : List (Authorization T)
  exchanges : List (Exchange T)

inductive Action (T : Type) where
  | tick (ms : ℕ)
  | authorize (request : AuthorizeRequest T)
  /-- `store.create` of a call is done -/
  | created (i : ℕ)
  | exchange (request : ExchangeRequest)
  /-- `store.consume` of a call is done -/
  | consumed (j : ℕ)
  | purge

section
variable (store : NativeAuthGrantStore T σ) (crypto : Crypto) (redirectUris : List Text)

/-- What `exchange` asks the store for. -/
def Exchange.consume (e : Exchange T) : NativeAuthGrantConsume :=
  ⟨crypto.hex e.request.code, crypto.base64url e.request.verifier, e.request.redirectUri, e.began⟩

namespace State
variable (s : State T σ)

/-- A request that is refused draws no code. -/
def authorize (request : AuthorizeRequest T) : State T σ :=
  if request.redirectUri ∉ redirectUris then s
  else if !CODE_PATTERN request.challenge then s
  else if request.state = [] || 512 < request.state.length then s
  else
    let code := crypto.randomCode s.authorizations.length
    let grant := ⟨crypto.hex code, request.challenge, request.redirectUri, s.now + GRANT_LIFETIME_MS, request.value⟩
    { s with authorizations := s.authorizations ++ [⟨grant, false⟩] }

def exchange (request : ExchangeRequest) : State T σ :=
  let refused := request.redirectUri ∉ redirectUris ∨ ¬ CODE_PATTERN request.code ∨ ¬ VERIFIER_PATTERN request.verifier
  { s with exchanges := s.exchanges ++ [⟨request, s.now, if refused then some none else none⟩] }

def created (i : ℕ) (a : Authorization T) : State T σ :=
  { s with store := store.create s.store a.grant, authorizations := s.authorizations.set i { a with stored := true } }

def consumed (j : ℕ) (e : Exchange T) : State T σ :=
  let (held, value) := store.consume s.store (e.consume crypto)
  { s with store := held, exchanges := s.exchanges.set j { e with result := some value } }

end State

def step (s : State T σ) : Action T → Option (State T σ)
  | .tick ms => some { s with now := s.now + ms }
  | .authorize request => some (s.authorize crypto redirectUris request)
  | .created i => match s.authorizations[i]? with
    | some a => if a.stored then none else some (s.created store i a)
    | none => none
  | .exchange request => some (s.exchange redirectUris request)
  | .consumed j => match s.exchanges[j]? with
    | some e => if e.result.isSome then none else some (s.consumed store crypto j e)
    | none => none
  | .purge => some { s with store := store.purge s.store s.now }

def handoff (initial : σ) : Machine (State T σ) (Action T) := ⟨⟨0, initial, [], []⟩, step store crypto redirectUris⟩

end

/-! ## What every step keeps -/

/-- No two codes have one hash. -/
def Fresh (crypto : Crypto) : Prop := Function.Injective fun i => crypto.hex (crypto.randomCode i)

/-- The exchange has returned the value. -/
def Exchange.Returned (e : Exchange T) (value : T) : Prop := e.result = some (some value)

/-- The call of `authorize` whose grant the exchange has. -/
structure Redeems (crypto : Crypto) (e : Exchange T) (value : T) (i : ℕ) (a : Authorization T) : Prop where
  stored : a.stored = true
  code : crypto.hex e.request.code = crypto.hex (crypto.randomCode i)
  challenge : a.grant.challenge = crypto.base64url e.request.verifier
  redirectUri : a.grant.redirectUri = e.request.redirectUri
  inTime : e.began < a.grant.expiresAt
  value : a.grant.value = value

structure Inv (crypto : Crypto) (Holds : σ → NativeAuthGrant T → Prop) (s : State T σ) : Prop where
  hashes (i : ℕ) (a : Authorization T) : s.authorizations[i]? = some a →
    a.grant.codeHash = crypto.hex (crypto.randomCode i)
  held (grant : NativeAuthGrant T) : Holds s.store grant →
    ∃ (i : ℕ) (a : Authorization T), s.authorizations[i]? = some a ∧ a.stored = true ∧ a.grant = grant
  returned (j : ℕ) (e : Exchange T) (value : T) : s.exchanges[j]? = some e → e.Returned value →
    ∃ (i : ℕ) (a : Authorization T), s.authorizations[i]? = some a ∧ Redeems crypto e value i a ∧
      ¬ Holds s.store a.grant
  kept (i : ℕ) (a : Authorization T) : s.authorizations[i]? = some a → a.stored = true →
    Holds s.store a.grant ∨ a.grant.expiresAt ≤ s.now ∨
      ∃ (j : ℕ) (e : Exchange T) (value : T), s.exchanges[j]? = some e ∧ e.Returned value ∧
        crypto.hex e.request.code = crypto.hex (crypto.randomCode i)
  once (j j' : ℕ) (e e' : Exchange T) (value value' : T) : s.exchanges[j]? = some e → s.exchanges[j']? = some e' →
    e.Returned value → e'.Returned value' → crypto.hex e.request.code = crypto.hex e'.request.code → j = j'
  began (j : ℕ) (e : Exchange T) : s.exchanges[j]? = some e → e.began ≤ s.now

section
variable {store : NativeAuthGrantStore T σ} {crypto : Crypto} {redirectUris : List Text}
variable {Holds : σ → NativeAuthGrant T → Prop} {s : State T σ}

/-- Grants with one hash are of one call. -/
theorem Inv.same (h : Inv crypto Holds s) (hfresh : Fresh crypto) {i k : ℕ} {a b : Authorization T}
    (ha : s.authorizations[i]? = some a) (hb : s.authorizations[k]? = some b)
    (hhash : a.grant.codeHash = b.grant.codeHash) : i = k := by
  rw [h.hashes i a ha, h.hashes k b hb] at hhash
  exact hfresh hhash

theorem Inv.tick (h : Inv crypto Holds s) (ms : ℕ) : Inv crypto Holds { s with now := s.now + ms } where
  hashes := h.hashes
  held := h.held
  returned := h.returned
  kept i a ha hstored := by
    rcases h.kept i a ha hstored with hheld | hexpired | hreturned
    · exact .inl hheld
    · exact .inr (.inl (Nat.le_add_right_of_le hexpired))
    · exact .inr (.inr hreturned)
  once := h.once
  began j e he := Nat.le_add_right_of_le (h.began j e he)

theorem Inv.authorize (h : Inv crypto Holds s) (request : AuthorizeRequest T) :
    Inv crypto Holds (s.authorize crypto redirectUris request) := by
  rw [State.authorize]
  split
  · exact h
  split
  · exact h
  split
  · exact h
  refine ⟨fun i a ha => ?_, fun grant hheld => ?_, fun j e value he hvalue => ?_, fun i a ha hstored => ?_, h.once, h.began⟩
  · rcases getElem?_concat_iff.mp ha with ha | ⟨rfl, rfl⟩
    · exact h.hashes i a ha
    · rfl
  · obtain ⟨i, a, ha, hrest⟩ := h.held grant hheld
    exact ⟨i, a, getElem?_concat_of ha, hrest⟩
  · obtain ⟨i, a, ha, hrest⟩ := h.returned j e value he hvalue
    exact ⟨i, a, getElem?_concat_of ha, hrest⟩
  · rcases getElem?_concat_iff.mp ha with ha | ⟨-, rfl⟩
    · exact h.kept i a ha hstored
    · cases hstored

theorem Inv.created (h : Inv crypto Holds s) (hcontract : Contract store Holds) (hfresh : Fresh crypto) {i : ℕ}
    {a : Authorization T} (ha : s.authorizations[i]? = some a) (hstored : a.stored = false) :
    Inv crypto Holds (s.created store i a) := by
  have hother : ∀ (k : ℕ) (b : Authorization T), s.authorizations[k]? = some b → b.stored = true → k ≠ i := by
    intro k b hb hbstored hk
    subst hk
    obtain rfl := Option.some.inj (ha.symm.trans hb)
    exact Bool.false_ne_true (hstored.symm.trans hbstored)
  refine ⟨fun k b hb => ?_, fun grant hheld => ?_, fun j e value he hvalue => ?_, fun k b hb hbstored => ?_, h.once,
    h.began⟩
  · rcases (getElem?_set_iff ha).mp hb with ⟨rfl, rfl⟩ | ⟨-, hb⟩
    · exact h.hashes k a ha
    · exact h.hashes k b hb
  · rcases hcontract.old _ _ _ hheld with rfl | hheld
    · exact ⟨i, _, getElem?_set_at ha, rfl, rfl⟩
    · obtain ⟨k, b, hb, hbstored, rfl⟩ := h.held grant hheld
      exact ⟨k, b, getElem?_set_of ha (hother k b hb hbstored) hb, hbstored, rfl⟩
  · obtain ⟨k, b, hb, hredeems, hgone⟩ := h.returned j e value he hvalue
    have hk := hother k b hb hredeems.stored
    refine ⟨k, b, getElem?_set_of ha hk hb, hredeems, fun hheld => ?_⟩
    rcases hcontract.old _ _ _ hheld with heq | hheld
    · exact hk (h.same hfresh hb ha (congrArg NativeAuthGrant.codeHash heq))
    · exact hgone hheld
  · rcases (getElem?_set_iff ha).mp hb with ⟨-, rfl⟩ | ⟨hk, hb⟩
    · exact .inl (hcontract.created _ _)
    · rcases h.kept k b hb hbstored with hheld | hrest
      · exact .inl (hcontract.kept _ _ _ hheld fun hhash => hk (h.same hfresh hb ha hhash))
      · exact .inr hrest

theorem Inv.exchange (h : Inv crypto Holds s) (request : ExchangeRequest) :
    Inv crypto Holds (s.exchange redirectUris request) := by
  have hold : ∀ (j : ℕ) (e : Exchange T) (value : T), (s.exchange redirectUris request).exchanges[j]? = some e →
      e.Returned value → s.exchanges[j]? = some e := by
    intro j e value he hvalue
    rcases getElem?_concat_iff.mp he with he | ⟨-, rfl⟩
    · exact he
    · rw [Exchange.Returned] at hvalue
      dsimp only at hvalue
      split at hvalue <;> cases hvalue
  refine ⟨h.hashes, h.held, fun j e value he hvalue => ?_, fun i a ha hstored => ?_,
    fun j j' e e' value value' he he' hvalue hvalue' => ?_, fun j e he => ?_⟩
  · exact h.returned j e value (hold j e value he hvalue) hvalue
  · rcases h.kept i a ha hstored with hheld | hexpired | ⟨j, e, value, he, hrest⟩
    · exact .inl hheld
    · exact .inr (.inl hexpired)
    · exact .inr (.inr ⟨j, e, value, getElem?_concat_of he, hrest⟩)
  · exact h.once j j' e e' value value' (hold j e value he hvalue) (hold j' e' value' he' hvalue') hvalue hvalue'
  · rcases getElem?_concat_iff.mp he with he | ⟨-, rfl⟩
    · exact h.began j e he
    · exact le_rfl

/-- An exchange that goes on began when it did. -/
theorem Inv.began_set (h : Inv crypto Holds s) {j : ℕ} {e : Exchange T} (he : s.exchanges[j]? = some e)
    (result : Option (Option T)) (k : ℕ) (x : Exchange T)
    (hx : (s.exchanges.set j { e with result := result })[k]? = some x) : x.began ≤ s.now := by
  rcases (getElem?_set_iff he).mp hx with ⟨-, rfl⟩ | ⟨-, hx⟩
  · exact h.began j e he
  · exact h.began k x hx

/-- The store has nothing that matches. -/
theorem Inv.refused (h : Inv crypto Holds s) {j : ℕ} {e : Exchange T} (he : s.exchanges[j]? = some e)
    (hresult : e.result = none) {held : σ} (hheld : ∀ grant, Holds held grant ↔ Holds s.store grant) :
    Inv crypto Holds { s with store := held, exchanges := s.exchanges.set j { e with result := some none } } := by
  have hold : ∀ (k : ℕ) (x : Exchange T) (value : T),
      (s.exchanges.set j { e with result := some none })[k]? = some x → x.Returned value →
        s.exchanges[k]? = some x := by
    intro k x value hx hvalue
    rcases (getElem?_set_iff he).mp hx with ⟨-, rfl⟩ | ⟨-, hx⟩
    · cases hvalue
    · exact hx
  refine ⟨h.hashes, fun grant hgrant => h.held grant ((hheld grant).mp hgrant), fun k x value hx hvalue => ?_,
    fun i a ha hstored => ?_, fun k k' x x' value value' hx hx' hvalue hvalue' => ?_, h.began_set he _⟩
  · obtain ⟨i, a, ha, hredeems, hgone⟩ := h.returned k x value (hold k x value hx hvalue) hvalue
    exact ⟨i, a, ha, hredeems, mt (hheld _).mp hgone⟩
  · rcases h.kept i a ha hstored with hgrant | hexpired | ⟨k, x, value, hx, hvalue, hhash⟩
    · exact .inl ((hheld _).mpr hgrant)
    · exact .inr (.inl hexpired)
    · have hk : k ≠ j := by
        intro hk
        subst hk
        obtain rfl := Option.some.inj (he.symm.trans hx)
        rw [Exchange.Returned, hresult] at hvalue
        cases hvalue
      exact .inr (.inr ⟨k, x, value, getElem?_set_of he hk hx, hvalue, hhash⟩)
  · exact h.once k k' x x' value value' (hold k x value hx hvalue) (hold k' x' value' hx' hvalue') hvalue hvalue'

/-- The store has given the grant away. -/
theorem Inv.granted (h : Inv crypto Holds s) (hfresh : Fresh crypto) {j : ℕ} {e : Exchange T}
    (he : s.exchanges[j]? = some e) (hresult : e.result = none) {grant : NativeAuthGrant T}
    (hgrant : Holds s.store grant) (hmatches : Matches grant (e.consume crypto)) {held : σ}
    (hheld : ∀ other, Holds held other ↔ Holds s.store other ∧ other ≠ grant) :
    Inv crypto Holds
      { s with store := held, exchanges := s.exchanges.set j { e with result := some (some grant.value) } } := by
  obtain ⟨i, a, ha, hstored, rfl⟩ := h.held grant hgrant
  have hcode : crypto.hex e.request.code = crypto.hex (crypto.randomCode i) :=
    hmatches.codeHash.symm.trans (h.hashes i a ha)
  -- No exchange had the code before: the grant would not be in the store.
  have hfirst : ∀ (k : ℕ) (x : Exchange T) (value : T), s.exchanges[k]? = some x → x.Returned value →
      crypto.hex x.request.code ≠ crypto.hex e.request.code := by
    intro k x value hx hvalue hhash
    obtain ⟨i', a', ha', hredeems, hgone⟩ := h.returned k x value hx hvalue
    obtain rfl : i' = i := hfresh (hredeems.code.symm.trans (hhash.trans hcode))
    obtain rfl := Option.some.inj (ha'.symm.trans ha)
    exact hgone hgrant
  have hne : ∀ (k : ℕ) (x : Exchange T) (value : T), s.exchanges[k]? = some x → x.Returned value → k ≠ j := by
    intro k x value hx hvalue hk
    subst hk
    obtain rfl := Option.some.inj (he.symm.trans hx)
    rw [Exchange.Returned, hresult] at hvalue
    cases hvalue
  refine ⟨h.hashes, fun other hother => h.held other ((hheld other).mp hother).1, fun k x value hx hvalue => ?_,
    fun k b hb hbstored => ?_, fun k k' x x' value value' hx hx' hvalue hvalue' hhash => ?_, h.began_set he _⟩
  · rcases (getElem?_set_iff he).mp hx with ⟨rfl, rfl⟩ | ⟨-, hx⟩
    · cases hvalue
      exact ⟨i, a, ha, ⟨hstored, hcode, hmatches.challenge, hmatches.redirectUri, hmatches.expiresAt, rfl⟩,
        fun hstill => ((hheld _).mp hstill).2 rfl⟩
    · obtain ⟨i', a', ha', hredeems, hgone⟩ := h.returned k x value hx hvalue
      exact ⟨i', a', ha', hredeems, fun hstill => hgone ((hheld _).mp hstill).1⟩
  · rcases h.kept k b hb hbstored with hstill | hexpired | ⟨l, x, value, hx, hvalue, hhash⟩
    · by_cases hsame : b.grant = a.grant
      · obtain rfl := h.same hfresh hb ha (congrArg NativeAuthGrant.codeHash hsame)
        exact .inr (.inr ⟨j, _, a.grant.value, getElem?_set_at he, rfl, hcode⟩)
      · exact .inl ((hheld _).mpr ⟨hstill, hsame⟩)
    · exact .inr (.inl hexpired)
    · exact .inr (.inr ⟨l, x, value, getElem?_set_of he (hne l x value hx hvalue) hx, hvalue, hhash⟩)
  · rcases (getElem?_set_iff he).mp hx with ⟨hk, hxe⟩ | ⟨-, hold⟩
    · rcases (getElem?_set_iff he).mp hx' with ⟨hk', -⟩ | ⟨-, hold'⟩
      · exact hk.trans hk'.symm
      · rw [hxe] at hhash
        exact absurd hhash.symm (hfirst k' x' value' hold' hvalue')
    · rcases (getElem?_set_iff he).mp hx' with ⟨-, hxe'⟩ | ⟨-, hold'⟩
      · rw [hxe'] at hhash
        exact absurd hhash (hfirst k x value hold hvalue)
      · exact h.once k k' x x' value value' hold hold' hvalue hvalue' hhash

theorem Inv.consumed (h : Inv crypto Holds s) (hcontract : Contract store Holds) (hfresh : Fresh crypto) {j : ℕ}
    {e : Exchange T} (he : s.exchanges[j]? = some e) (hresult : e.result = none) :
    Inv crypto Holds (s.consumed store crypto j e) := by
  rw [State.consumed]
  cases hvalue : (store.consume s.store (e.consume crypto)).2 with
  | none =>
    dsimp only
    rw [hvalue]
    exact h.refused he hresult fun grant => (hcontract.missing _ _ hvalue grant).1
  | some value =>
    obtain ⟨grant, hgrant, hmatches, rfl, hheld⟩ := hcontract.found _ _ _ hvalue
    dsimp only
    rw [hvalue]
    exact h.granted hfresh he hresult hgrant hmatches hheld

theorem Inv.purge (h : Inv crypto Holds s) (hcontract : Contract store Holds) :
    Inv crypto Holds { s with store := store.purge s.store s.now } where
  hashes := h.hashes
  held grant hheld := h.held grant (hcontract.purged _ _ _ hheld)
  returned j e value he hvalue := by
    obtain ⟨i, a, ha, hredeems, hgone⟩ := h.returned j e value he hvalue
    exact ⟨i, a, ha, hredeems, fun hheld => hgone (hcontract.purged _ _ _ hheld)⟩
  kept i a ha hstored := by
    rcases h.kept i a ha hstored with hheld | hrest
    · by_cases hexpired : a.grant.expiresAt ≤ s.now
      · exact .inr (.inl hexpired)
      · exact .inl (hcontract.unexpired _ _ _ hheld (Nat.lt_of_not_le hexpired))
    · exact .inr hrest
  once := h.once
  began := h.began

theorem inv_of_reach (hcontract : Contract store Holds) (hfresh : Fresh crypto) {initial : σ}
    (hempty : ∀ grant, ¬ Holds initial grant)
    (h : (handoff store crypto redirectUris initial).Reach anyStep s) : Inv crypto Holds s := by
  refine h.invariant (Inv crypto Holds) ⟨nofun, fun grant hheld => absurd hheld (hempty grant), nofun, nofun, nofun,
    nofun⟩
    fun s a s' hs _ hstep => ?_
  cases a with
  | tick ms =>
    cases hstep
    exact hs.tick ms
  | authorize request =>
    cases hstep
    exact hs.authorize request
  | created i =>
    change (match s.authorizations[i]? with | some a => _ | none => none) = some s' at hstep
    split at hstep
    · next a ha =>
      split at hstep
      · cases hstep
      · next hstored =>
        cases hstep
        exact hs.created hcontract hfresh ha (Bool.eq_false_iff.mpr hstored)
    · cases hstep
  | exchange request =>
    cases hstep
    exact hs.exchange request
  | consumed j =>
    change (match s.exchanges[j]? with | some e => _ | none => none) = some s' at hstep
    split at hstep
    · next e he =>
      split at hstep
      · cases hstep
      · next hresult =>
        cases hstep
        exact hs.consumed hcontract hfresh he (Option.not_isSome_iff_eq_none.mp hresult)
    · cases hstep
  | purge =>
    cases hstep
    exact hs.purge hcontract

/-! ## What the handoff promises -/

/-- **A code is exchanged once.** What an exchange returns is what was authorized for its code, with the challenge of
its verifier, for its redirect URI and not too long before; and no two exchanges return a value for one code. -/
theorem handoff_single_use (hcontract : Contract store Holds) (hfresh : Fresh crypto) {initial : σ}
    (hempty : ∀ grant, ¬ Holds initial grant)
    (h : (handoff store crypto redirectUris initial).Reach anyStep s) :
    (∀ (j : ℕ) (e : Exchange T) (value : T), s.exchanges[j]? = some e → e.Returned value →
      ∃ (i : ℕ) (a : Authorization T), s.authorizations[i]? = some a ∧ Redeems crypto e value i a) ∧
    ∀ (j j' : ℕ) (e e' : Exchange T) (value value' : T), s.exchanges[j]? = some e → s.exchanges[j']? = some e' →
      e.Returned value → e'.Returned value' → e.request.code = e'.request.code → j = j' := by
  have hs := inv_of_reach hcontract hfresh hempty h
  constructor
  · intro j e value he hvalue
    obtain ⟨i, a, ha, hredeems, -⟩ := hs.returned j e value he hvalue
    exact ⟨i, a, ha, hredeems⟩
  · intro j j' e e' value value' he he' hvalue hvalue' hcode
    exact hs.once j j' e e' value value' he he' hvalue hvalue' (congrArg crypto.hex hcode)

end

/-! ## A store in memory -/

/-- The grants, each under the hash of its code. -/
structure Grants (T : Type) where
  byHash : OMap Text (NativeAuthGrant T)
  keyed (hash : Text) (grant : NativeAuthGrant T) : byHash.get hash = some grant → grant.codeHash = hash

namespace Grants

def empty : Grants T := ⟨OMap.empty, nofun⟩

def Holds (grants : Grants T) (grant : NativeAuthGrant T) : Prop := grants.byHash.get grant.codeHash = some grant

def create (grants : Grants T) (grant : NativeAuthGrant T) : Grants T where
  byHash := grants.byHash.set grant.codeHash grant
  keyed hash other h := by
    rw [OMap.get_set] at h
    split at h
    · next hhash => exact (Option.some.inj h) ▸ hhash.symm
    · exact grants.keyed hash other h

def delete (grants : Grants T) (hash : Text) : Grants T where
  byHash := grants.byHash.delete hash
  keyed other grant h := by
    rw [OMap.get_delete] at h
    split at h
    · cases h
    · exact grants.keyed other grant h

def consume (grants : Grants T) (request : NativeAuthGrantConsume) : Grants T × Option T :=
  match grants.byHash.get request.codeHash with
  | none => (grants, none)
  | some grant =>
    if grant.challenge ≠ request.challenge ∨ grant.redirectUri ≠ request.redirectUri ∨ grant.expiresAt ≤ request.now then
      (grants, none)
    else (grants.delete request.codeHash, some grant.value)

def purge (grants : Grants T) (now : ℕ) : Grants T where
  byHash := grants.byHash.filterValues fun grant => now < grant.expiresAt
  keyed hash grant h := by
    rw [OMap.get_filterValues, Option.filter_eq_some_iff] at h
    exact grants.keyed hash grant h.1

def store : NativeAuthGrantStore T (Grants T) := ⟨create, consume, purge⟩

variable {grants : Grants T} {grant : NativeAuthGrant T}

theorem not_holds_empty (grant : NativeAuthGrant T) : ¬ empty.Holds grant := by
  intro h
  cases h

theorem holds_delete_iff (h : grants.Holds grant) (other : NativeAuthGrant T) :
    (grants.delete grant.codeHash).Holds other ↔ grants.Holds other ∧ other ≠ grant := by
  rw [Holds, delete, OMap.get_delete]
  by_cases hhash : other.codeHash = grant.codeHash
  · rw [if_pos hhash]
    refine iff_of_false nofun fun hother => hother.2 ?_
    have hsame := hother.1
    rw [Holds, hhash, h] at hsame
    exact (Option.some.inj hsame).symm
  · rw [if_neg hhash]
    exact ⟨fun hother => ⟨hother, fun heq => hhash (congrArg NativeAuthGrant.codeHash heq)⟩, And.left⟩

/-- The store either finds the grant that matches and deletes it, or changes nothing. -/
theorem consume_cases (grants : Grants T) (request : NativeAuthGrantConsume) :
    (∃ grant, grants.Holds grant ∧ Matches grant request ∧
      grants.consume request = (grants.delete grant.codeHash, some grant.value)) ∨
    ((∀ grant, grants.Holds grant → ¬ Matches grant request) ∧ grants.consume request = (grants, none)) := by
  rw [consume]
  cases hget : grants.byHash.get request.codeHash with
  | none =>
    refine .inr ⟨fun grant hgrant hmatches => ?_, rfl⟩
    rw [Holds, hmatches.codeHash, hget] at hgrant
    cases hgrant
  | some grant =>
    have hhash := grants.keyed _ _ hget
    dsimp only
    split
    · next hwrong =>
      refine .inr ⟨fun other hother hmatches => ?_, rfl⟩
      rw [Holds, hmatches.codeHash, hget] at hother
      obtain rfl := Option.some.inj hother
      rcases hwrong with hchallenge | hredirect | hexpired
      · exact hchallenge hmatches.challenge
      · exact hredirect hmatches.redirectUri
      · exact Nat.not_le_of_lt hmatches.expiresAt hexpired
    · next hright =>
      rw [not_or, not_or, not_not, not_not, Nat.not_le] at hright
      rw [← hhash] at hget ⊢
      exact .inl ⟨grant, hget, ⟨hhash, hright.1, hright.2.1, hright.2.2⟩, rfl⟩

theorem store_contract : Contract (store : NativeAuthGrantStore T _) Holds where
  created grants grant := OMap.get_set_self ..
  old grants grant other hother := by
    change (grants.byHash.set grant.codeHash grant).get other.codeHash = some other at hother
    rw [OMap.get_set] at hother
    split at hother
    · exact .inl (Option.some.inj hother).symm
    · exact .inr hother
  kept grants grant other hother hne := by
    show (grants.byHash.set grant.codeHash grant).get other.codeHash = some other
    rw [OMap.get_set, if_neg hne]
    exact hother
  found grants request value hvalue := by
    rcases grants.consume_cases request with ⟨grant, hgrant, hmatches, heq⟩ | ⟨-, heq⟩
    · change (grants.consume request).2 = some value at hvalue
      rw [heq] at hvalue
      refine ⟨grant, hgrant, hmatches, Option.some.inj hvalue, fun other => ?_⟩
      change Holds (grants.consume request).1 other ↔ _
      rw [heq]
      exact holds_delete_iff hgrant other
    · change (grants.consume request).2 = some value at hvalue
      rw [heq] at hvalue
      cases hvalue
  missing grants request hvalue grant := by
    rcases grants.consume_cases request with ⟨other, -, -, heq⟩ | ⟨hnone, heq⟩
    · change (grants.consume request).2 = none at hvalue
      rw [heq] at hvalue
      cases hvalue
    · change (Holds (grants.consume request).1 grant ↔ _) ∧ _
      rw [heq]
      exact ⟨Iff.rfl, hnone grant⟩
  purged grants now grant hgrant := by
    change (grants.byHash.filterValues _).get grant.codeHash = some grant at hgrant
    rw [OMap.get_filterValues, Option.filter_eq_some_iff] at hgrant
    exact hgrant.1
  unexpired grants now grant hgrant hnow := by
    show (grants.byHash.filterValues _).get grant.codeHash = some grant
    rw [OMap.get_filterValues, Option.filter_eq_some_iff]
    exact ⟨hgrant, decide_eq_true hnow⟩

end Grants

/-- The digests of the first code and of the verifiers below; other texts stand for themselves. -/
def digests : Crypto where
  randomCode i := List.replicate (i + 43) 65
  hex text :=
    if text = List.replicate 43 65 then js "0f007385b6f9d4b7eeb2748605afe1a984a0a3bfa3f014d09e2a784ce9e5cd1a" else text
  base64url text :=
    if text = List.replicate 43 66 then js "QS3EbMnjyybyn3wUFcVWNJr2KQTF0VsKLYz9xc-iKzQ"
    else if text = List.replicate 43 67 then js "lCAUrwMZXJf8imEhoD4WYLiQJ6U4MloQHrpCbazX5Yc"
    else text

theorem digests_fresh : Fresh digests := by
  have hfirst : digests.hex (digests.randomCode 0) =
      js "0f007385b6f9d4b7eeb2748605afe1a984a0a3bfa3f014d09e2a784ce9e5cd1a" := by
    simp only [digests, if_true]
  have hlater : ∀ i, digests.hex (digests.randomCode (i + 1)) = List.replicate (i + 1 + 43) 65 := by
    intro i
    simp only [digests]
    refine if_neg fun heq => ?_
    have hlength := congrArg List.length heq
    simp at hlength
  -- The first digest begins with another letter than the later codes.
  have hne : ∀ i, js "0f007385b6f9d4b7eeb2748605afe1a984a0a3bfa3f014d09e2a784ce9e5cd1a" ≠
      List.replicate (i + 1 + 43) 65 := by
    intro i heq
    have hhead := congrArg List.head? heq
    rw [List.replicate_succ, List.head?_cons] at hhead
    exact absurd hhead (by decide)
  intro i j h
  cases i with
  | zero =>
    cases j with
    | zero => rfl
    | succ j => exact absurd (hfirst.symm.trans (h.trans (hlater j))) (hne j)
  | succ i =>
    cases j with
    | zero => exact absurd (hfirst.symm.trans (h.symm.trans (hlater i))) (hne i)
    | succ j =>
      have hlength := congrArg List.length ((hlater i).symm.trans (h.trans (hlater j)))
      simpa using hlength

/-- The code with the verifier `[c, c, ..]`. -/
def attempt (c : UInt16) : ExchangeRequest :=
  ⟨List.replicate 43 65, List.replicate 43 c, js "com.example:/"⟩

/-- A code is presented with a wrong verifier, and then with the right one. -/
def attempts : List (Action ℕ) :=
  [.authorize ⟨7, digests.base64url (List.replicate 43 66), js "com.example:/", js "s"⟩, .created 0,
    .exchange (attempt 67), .consumed 0, .tick 1000, .exchange (attempt 66)]

theorem code_exchanged : ∃ s : State ℕ (Grants ℕ), s.exchanges[1]? = some ⟨attempt 66, 1000, some (some 7)⟩ ∧
    ∃ (i : ℕ) (a : Authorization ℕ), s.authorizations[i]? = some a ∧
      Redeems digests ⟨attempt 66, 1000, some (some 7)⟩ 7 i a := by
  have hreach : (handoff Grants.store digests [js "com.example:/"] Grants.empty).Reach anyStep _ :=
    Machine.steps_of_exec (attempts ++ [.consumed 1]) rfl
  exact ⟨_, rfl, (handoff_single_use Grants.store_contract digests_fresh Grants.not_holds_empty hreach).1 1 _ 7 rfl rfl⟩

end TypeFerry.Auth.NativeHandoff
