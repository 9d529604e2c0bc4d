import Mathlib.Logic.Function.Basic
import TypeFerry.Lib.Entries
import TypeFerry.Lib.Runs

/-! # The method caches of the other ports

`method.ts`, `method.py`, `method.rs` and `runtime.rb`. A call looks for a result of its key that is young enough, or
invokes the handler. TypeScript stores the promise at once, with the time before; Python stores the value when it is
there, with the time before; Rust and Ruby store it then, with the time after. The clock does not go back. -/
namespace TypeFerry.Server.MethodCaches
open TypeFerry.Lib.Entries TypeFerry.Lib.Runs

variable {κ ν ε : Type}

inductive Outcome (ν ε : Type) where
  | value (v : ν)
  | failed (err : ε)
  deriving DecidableEq

/-- Where the answer of a call comes from. -/
inductive Origin where
  | invoked
  /-- the handler threw before it returned a promise -/
  | threw
  /-- from the cache, which another call filled -/
  | served (call : ℕ)
  deriving DecidableEq

structure Call (κ ν ε : Type) where
  key : κ
  began : ℕ
  origin : Origin
  /-- When the handler was done, and with what. -/
  ended : Option (ℕ × Outcome ν ε)

structure Entry where
  call : ℕ
  timestamp : ℕ

/-- What the ports do in their own way. -/
structure Port where
  /-- An entry is made when the handler is called, not when it has returned a value. -/
  shared : Bool
  /-- An entry has the time before the handler. -/
  atStart : Bool

/-- `customMemoize` -/
def customMemoize : Port := ⟨true, true⟩

/-- `_memoize` -/
def memoize : Port := ⟨false, true⟩

/-- `Method::exec`, with `cache_get` and `cache_put` -/
def cachePut : Port := ⟨false, false⟩

/-- `Method#call`, with `cached_value` and `store` -/
def store : Port := ⟨false, false⟩

structure State (κ ν ε : Type) where
  now : ℕ
  calls : List (Call κ ν ε)
  cache : κ → Option Entry

inductive Action (κ ε : Type) (ν : Type) where
  | tick (ms : ℕ)
  /-- A call with this key; the handler may throw at once. -/
  | call (key : κ) (throws : Option ε)
  | finish (call : ℕ) (outcome : Outcome ν ε)

namespace State
variable (s : State κ ν ε)

/-- The entry that is young enough. -/
def hit (maxAge : ℕ) (key : κ) : Option Entry := (s.cache key).filter fun e => s.now - e.timestamp < maxAge

def add (call : Call κ ν ε) : State κ ν ε := { s with calls := s.calls ++ [call] }

variable [DecidableEq κ]

def put (key : κ) (e : Entry) : State κ ν ε := { s with cache := Function.update s.cache key (some e) }

/-- The cached function is called. -/
def begin (port : Port) (maxAge : ℕ) (key : κ) (throws : Option ε) : State κ ν ε :=
  match s.hit maxAge key with
  | some e => s.add ⟨key, s.now, .served e.call, none⟩
  | none => match throws with
    | some err => s.add ⟨key, s.now, .threw, some (s.now, .failed err)⟩
    | none =>
      let t := s.add ⟨key, s.now, .invoked, none⟩
      if port.shared then t.put key ⟨s.calls.length, s.now⟩ else t

/-- The handler of the call `c` is done. -/
def finish (port : Port) (c : ℕ) (call : Call κ ν ε) (outcome : Outcome ν ε) : State κ ν ε :=
  let t := { s with calls := s.calls.set c { call with ended := some (s.now, outcome) } }
  if port.shared then t
  else match outcome with
    | .value _ => t.put call.key ⟨c, if port.atStart then call.began else s.now⟩
    | .failed _ => t

end State

section
variable [DecidableEq κ]

def step (port : Port) (maxAge : ℕ) (s : State κ ν ε) : Action κ ε ν → Option (State κ ν ε)
  | .tick ms => some { s with now := s.now + ms }
  | .call key throws => some (s.begin port maxAge key throws)
  | .finish c outcome => match s.calls[c]? with
    | some call => if call.origin = .invoked ∧ call.ended.isNone then some (s.finish port c call outcome) else none
    | none => none

def machine (port : Port) (maxAge : ℕ) : Machine (State κ ν ε) (Action κ ε ν) := ⟨⟨0, [], fun _ => none⟩, step port maxAge⟩

end

/-! ## What every step keeps -/

/-- The entry of the call, if there is one, has the time `t`. -/
def Stamped (port : Port) (call : Call κ ν ε) (t : ℕ) : Prop :=
  call.origin = .invoked ∧
    (if port.shared then t = call.began
      else ∃ ended v, call.ended = some (ended, .value v) ∧ t = if port.atStart then call.began else ended)

/-- An answer from the cache: `own` is the call that filled it. -/
structure Served (port : Port) (maxAge : ℕ) (call own : Call κ ν ε) : Prop where
  key : own.key = call.key
  /-- The handler was not done for too long, or had not been called for too long. -/
  young : ∃ t, Stamped port own t ∧ t ≤ call.began ∧ call.began - t < maxAge
  /-- Where promises are not shared the value was there. -/
  ready : port.shared = false → ∃ ended v, own.ended = some (ended, .value v) ∧ ended ≤ call.began

/-- The handler is not invoked again while a result is young enough. -/
def Spaced (port : Port) (maxAge : ℕ) (s : State κ ν ε) : Prop :=
  ∀ (i j : ℕ) (call later : Call κ ν ε) (t : ℕ), s.calls[i]? = some call → s.calls[j]? = some later →
    call.key = later.key → Stamped port call t → (∀ o, later.origin ≠ .served o) →
    t < later.began ∨ port.shared = true ∧ i < j → t + maxAge ≤ later.began

/-- Entries are made in the order of their times. -/
def Port.InTurn (port : Port) : Prop := port.shared = true ∨ port.atStart = false

instance (port : Port) : Decidable port.InTurn := inferInstanceAs (Decidable (_ ∨ _))

/-- What the calls and the cache say of each other. -/
structure Filled (port : Port) (maxAge : ℕ) (s : State κ ν ε) : Prop where
  began (i : ℕ) (call : Call κ ν ε) : s.calls[i]? = some call → call.began ≤ s.now
  ended (i : ℕ) (call : Call κ ν ε) (t : ℕ) (outcome : Outcome ν ε) :
    s.calls[i]? = some call → call.ended = some (t, outcome) → t ≤ s.now
  cache (key : κ) (e : Entry) : s.cache key = some e →
    ∃ own, s.calls[e.call]? = some own ∧ own.key = key ∧ Stamped port own e.timestamp
  served (i o : ℕ) (call : Call κ ν ε) : s.calls[i]? = some call → call.origin = .served o →
    ∃ own, s.calls[o]? = some own ∧ Served port maxAge call own

structure Inv (port : Port) (maxAge : ℕ) (s : State κ ν ε) : Prop extends Filled port maxAge s where
  /-- The cache has the last of the entries. -/
  newest (i : ℕ) (call : Call κ ν ε) (t : ℕ) : port.InTurn → s.calls[i]? = some call → Stamped port call t →
    ∃ e, s.cache call.key = some e ∧ t ≤ e.timestamp
  spaced : port.InTurn → Spaced port maxAge s

variable {port : Port} {maxAge : ℕ} {s s' : State κ ν ε}

theorem Stamped.le_now (h : Filled port maxAge s) {i : ℕ} {call : Call κ ν ε} {t : ℕ} (hcall : s.calls[i]? = some call)
    (ht : Stamped port call t) : t ≤ s.now := by
  obtain ⟨-, ht⟩ := ht
  split at ht
  · exact ht ▸ h.began i call hcall
  · obtain ⟨ended, v, hended, rfl⟩ := ht
    split
    · exact h.began i call hcall
    · exact h.ended i call ended _ hcall hended

theorem getElem?_add {call c : Call κ ν ε} {i : ℕ} :
    (s.add c).calls[i]? = some call ↔ s.calls[i]? = some call ∨ i = s.calls.length ∧ call = c :=
  getElem?_concat_iff

/-- The entry that a call misses, if there is one, is too old. -/
theorem old_of_miss {key : κ} (hmiss : s.hit maxAge key = none) {e : Entry} (he : s.cache key = some e) :
    maxAge ≤ s.now - e.timestamp := by
  rw [State.hit, he, Option.filter_some] at hmiss
  split at hmiss
  · cases hmiss
  · next h => exact Nat.not_lt.mp (by simpa using h)

theorem Inv.spaced_of_miss (h : Inv port maxAge s) (hturn : port.InTurn) {key : κ}
    (hmiss : s.hit maxAge key = none) {i : ℕ} {call : Call κ ν ε} {t : ℕ} (hcall : s.calls[i]? = some call)
    (hkey : call.key = key) (ht : Stamped port call t) : t + maxAge ≤ s.now := by
  obtain ⟨e, he, hle⟩ := h.newest i call t hturn hcall ht
  have hold := old_of_miss hmiss (hkey ▸ he)
  obtain ⟨own, hown, -, hstamped⟩ := h.cache _ e he
  have hnow := hstamped.le_now h.toFilled hown
  omega

/-- A new call, which has no entry yet. -/
theorem Inv.add (h : Inv port maxAge s) {c : Call κ ν ε} (hbegan : c.began = s.now)
    (hended : ∀ t outcome, c.ended = some (t, outcome) → t ≤ s.now) (hplain : ∀ t, ¬Stamped port c t)
    (hserved : ∀ o, c.origin = .served o → ∃ own, s.calls[o]? = some own ∧ Served port maxAge c own)
    (hmiss : (∀ o, c.origin ≠ .served o) → s.hit maxAge c.key = none) : Inv port maxAge (s.add c) where
  began i call hcall := by
    rcases getElem?_add.mp hcall with hcall | ⟨-, rfl⟩
    · exact h.began i call hcall
    · exact hbegan.le
  ended i call t outcome hcall ht := by
    rcases getElem?_add.mp hcall with hcall | ⟨-, rfl⟩
    · exact h.ended i call t outcome hcall ht
    · exact hended t outcome ht
  cache key e he := by
    obtain ⟨own, hown, hkey⟩ := h.cache key e he
    exact ⟨own, getElem?_add.mpr (.inl hown), hkey⟩
  served i o call hcall ho := by
    have hold : ∃ own, s.calls[o]? = some own ∧ Served port maxAge call own := by
      rcases getElem?_add.mp hcall with hcall | ⟨-, rfl⟩
      · exact h.served i o call hcall ho
      · exact hserved o ho
    obtain ⟨own, hown, hs⟩ := hold
    exact ⟨own, getElem?_add.mpr (.inl hown), hs⟩
  newest i call t hturn hcall ht := by
    rcases getElem?_add.mp hcall with hcall | ⟨-, rfl⟩
    · exact h.newest i call t hturn hcall ht
    · exact absurd ht (hplain t)
  spaced hturn i j call later t hcall hlater hkey ht horigin hafter := by
    rcases getElem?_add.mp hcall with hold | ⟨-, rfl⟩
    · rcases getElem?_add.mp hlater with hlater | ⟨-, heq⟩
      · exact h.spaced hturn i j call later t hold hlater hkey ht horigin hafter
      · subst heq
        rw [hbegan]
        exact h.spaced_of_miss hturn (hmiss horigin) hold hkey ht
    · exact absurd ht (hplain t)

/-- The call `c` was running, and is done. -/
theorem getElem?_done {c i : ℕ} {own call : Call κ ν ε} (hown : s.calls[c]? = some own) {t : ℕ}
    {outcome : Outcome ν ε} :
    (s.calls.set c { own with ended := some (t, outcome) })[i]? = some call ↔
      (i = c ∧ call = { own with ended := some (t, outcome) }) ∨ i ≠ c ∧ s.calls[i]? = some call :=
  getElem?_set_iff hown

/-- What the end of the call `c` leaves to say of it. -/
def Call.done (own : Call κ ν ε) (t : ℕ) (outcome : Outcome ν ε) : Call κ ν ε :=
  { own with ended := some (t, outcome) }

theorem stamped_done_iff {own : Call κ ν ε} (horigin : own.origin = .invoked) {now t : ℕ} {outcome : Outcome ν ε} :
    Stamped port (own.done now outcome) t ↔ if port.shared then t = own.began
      else (∃ v, outcome = .value v) ∧ t = if port.atStart then own.began else now := by
  rw [Stamped, and_iff_right (show (own.done now outcome).origin = .invoked from horigin)]
  by_cases hport : port.shared = true
  · rw [if_pos hport, if_pos hport]
    rfl
  · rw [if_neg hport, if_neg hport]
    constructor
    · intro ⟨ended, v, hended, ht⟩
      cases hended
      exact ⟨⟨v, rfl⟩, ht⟩
    · intro ⟨⟨v, hv⟩, ht⟩
      subst hv
      exact ⟨now, v, rfl, ht⟩

/-- What had an entry still has it. -/
theorem Stamped.done {own : Call κ ν ε} (hended : own.ended = none) {t : ℕ} (h : Stamped port own t) (now : ℕ)
    (outcome : Outcome ν ε) : port.shared = true ∧ Stamped port (own.done now outcome) t := by
  obtain ⟨horigin, ht⟩ := h
  by_cases hport : port.shared = true
  · rw [if_pos hport] at ht
    refine ⟨hport, (stamped_done_iff horigin).mpr ?_⟩
    rwa [if_pos hport]
  · rw [if_neg hport] at ht
    obtain ⟨ended, v, heq, -⟩ := ht
    rw [hended] at heq
    cases heq

theorem Served.done {call own : Call κ ν ε} (hended : own.ended = none) {now : ℕ} {outcome : Outcome ν ε}
    (h : Served port maxAge call own) : Served port maxAge call (own.done now outcome) := by
  obtain ⟨t, ht, hle⟩ := h.young
  obtain ⟨hport, hdone⟩ := ht.done hended now outcome
  exact ⟨h.key, ⟨t, hdone, hle⟩, fun hnot => Bool.noConfusion (hport.symm.trans hnot)⟩

section
variable [DecidableEq κ]

theorem put_cache_self (key : κ) (e : Entry) : (s.put key e).cache key = some e := Function.update_self ..

theorem put_cache_of_ne {key key' : κ} (h : key' ≠ key) (e : Entry) : (s.put key e).cache key' = s.cache key' :=
  Function.update_of_ne h ..

/-- A call that puts an entry into the cache at once. -/
theorem Inv.add_shared (h : Inv port maxAge s) (hport : port.shared = true) {key : κ}
    (hmiss : s.hit maxAge key = none) :
    Inv port maxAge ((s.add ⟨key, s.now, .invoked, none⟩).put key ⟨s.calls.length, s.now⟩) where
  began i call hcall := by
    rcases getElem?_add.mp hcall with hcall | ⟨-, rfl⟩
    · exact h.began i call hcall
    · exact le_rfl
  ended i call t outcome hcall ht := by
    rcases getElem?_add.mp hcall with hcall | ⟨-, rfl⟩
    · exact h.ended i call t outcome hcall ht
    · cases ht
  cache key' e he := by
    by_cases hkey : key' = key
    · subst hkey
      rw [put_cache_self] at he
      cases he
      exact ⟨_, getElem?_add.mpr (.inr ⟨rfl, rfl⟩), rfl, rfl, by rw [if_pos hport]⟩
    · rw [put_cache_of_ne hkey] at he
      obtain ⟨own, hown, hrest⟩ := h.cache key' e he
      exact ⟨own, getElem?_add.mpr (.inl hown), hrest⟩
  served i o call hcall ho := by
    rcases getElem?_add.mp hcall with hcall | ⟨-, rfl⟩
    · obtain ⟨own, hown, hs⟩ := h.served i o call hcall ho
      exact ⟨own, getElem?_add.mpr (.inl hown), hs⟩
    · cases ho
  newest i call t hturn hcall ht := by
    by_cases hkey : call.key = key
    · refine ⟨_, by rw [hkey, put_cache_self], ?_⟩
      rcases getElem?_add.mp hcall with hcall | ⟨-, rfl⟩
      · exact ht.le_now h.toFilled hcall
      · obtain ⟨-, ht⟩ := ht
        rw [if_pos hport] at ht
        exact ht.le
    · rw [put_cache_of_ne hkey]
      rcases getElem?_add.mp hcall with hcall | ⟨-, rfl⟩
      · exact h.newest i call t hturn hcall ht
      · exact absurd rfl hkey
  spaced hturn i j call later t hcall hlater hkey ht horigin hafter := by
    rcases getElem?_add.mp hlater with hlater | ⟨rfl, rfl⟩
    · rcases getElem?_add.mp hcall with hcall | ⟨rfl, rfl⟩
      · exact h.spaced hturn i j call later t hcall hlater hkey ht horigin hafter
      · have hbegan := h.began j later hlater
        have hj := (List.getElem?_eq_some_iff.mp hlater).1
        obtain ⟨-, ht⟩ := ht
        rw [if_pos hport] at ht
        rcases hafter with hlt | ⟨-, hlt⟩
        · exact absurd (lt_of_eq_of_lt ht.symm hlt) (Nat.not_lt.mpr hbegan)
        · exact absurd hj (Nat.not_lt.mpr hlt.le)
    · rcases getElem?_add.mp hcall with hcall | ⟨rfl, rfl⟩
      · exact h.spaced_of_miss hturn hmiss hcall hkey ht
      · obtain ⟨-, ht⟩ := ht
        rw [if_pos hport] at ht
        rcases hafter with hlt | ⟨-, hlt⟩
        · exact absurd (lt_of_eq_of_lt ht.symm hlt) (Nat.lt_irrefl _)
        · exact absurd hlt (Nat.lt_irrefl _)

end

section
variable {c : ℕ} {own : Call κ ν ε} (hown : s.calls[c]? = some own) (horigin : own.origin = .invoked)
  (hended : own.ended = none) (outcome : Outcome ν ε)
include hown

/-- What a call was before. -/
theorem before_done {i : ℕ} {call : Call κ ν ε}
    (h : (s.calls.set c (own.done s.now outcome))[i]? = some call) :
    ∃ call₀, s.calls[i]? = some call₀ ∧ call₀.key = call.key ∧ call₀.began = call.began ∧
      call₀.origin = call.origin ∧ (call = call₀ ∨ i = c ∧ call = own.done s.now outcome) := by
  rcases (getElem?_done hown).mp h with ⟨rfl, rfl⟩ | ⟨-, hcall⟩
  · exact ⟨own, hown, rfl, rfl, rfl, .inr ⟨rfl, rfl⟩⟩
  · exact ⟨call, hcall, rfl, rfl, rfl, .inl rfl⟩

include hended

variable (port maxAge) in
/-- What it still is. -/
theorem after_done {i : ℕ} {call₀ : Call κ ν ε} (h : s.calls[i]? = some call₀) :
    ∃ call, (s.calls.set c (own.done s.now outcome))[i]? = some call ∧ call.key = call₀.key ∧
      (∀ t, Stamped port call₀ t → Stamped port call t) ∧
      ∀ x : Call κ ν ε, Served port maxAge x call₀ → Served port maxAge x call := by
  by_cases hi : i = c
  · subst hi
    rw [hown] at h
    cases h
    exact ⟨_, (getElem?_done hown).mpr (.inl ⟨rfl, rfl⟩), rfl, fun t ht => (ht.done hended _ _).2,
      fun x hx => hx.done hended⟩
  · exact ⟨call₀, (getElem?_done hown).mpr (.inr ⟨hi, h⟩), rfl, fun _ => id, fun _ => id⟩

theorem Filled.done (h : Filled port maxAge s) :
    Filled port maxAge { s with calls := s.calls.set c (own.done s.now outcome) } where
  began i call hcall := by
    obtain ⟨call₀, hcall₀, -, hbegan, -⟩ := before_done hown outcome hcall
    exact hbegan ▸ h.began i call₀ hcall₀
  ended i call t o hcall ht := by
    obtain ⟨call₀, hcall₀, -, -, -, rfl | ⟨-, rfl⟩⟩ := before_done hown outcome hcall
    · exact h.ended i call t o hcall₀ ht
    · cases ht
      exact le_rfl
  cache key e he := by
    obtain ⟨x, hx, hkey, hstamped⟩ := h.cache key e he
    obtain ⟨x', hx', hkey', hkeep, -⟩ := after_done port maxAge hown hended outcome hx
    exact ⟨x', hx', hkey'.trans hkey, hkeep _ hstamped⟩
  served i o call hcall ho := by
    obtain ⟨call₀, hcall₀, hkey₀, hbegan, horigin₀, -⟩ := before_done hown outcome hcall
    obtain ⟨x, hx, hserved⟩ := h.served i o call₀ hcall₀ (horigin₀.trans ho)
    obtain ⟨x', hx', -, -, hkeep⟩ := after_done port maxAge hown hended outcome hx
    obtain ⟨hkey, hyoung, hready⟩ := hkeep call₀ hserved
    exact ⟨x', hx', hkey.trans hkey₀, hbegan ▸ hyoung, hbegan ▸ hready⟩

/-- The cache is as it was where that is right. -/
theorem Inv.done (h : Inv port maxAge s) (hkeeps : ∀ t, Stamped port (own.done s.now outcome) t → Stamped port own t) :
    Inv port maxAge { s with calls := s.calls.set c (own.done s.now outcome) } := by
  refine ⟨h.toFilled.done hown hended outcome, fun i call t hturn hcall ht => ?_, fun hturn => ?_⟩
  · obtain ⟨call₀, hcall₀, hkey, -, -, rfl | ⟨rfl, rfl⟩⟩ := before_done hown outcome hcall
    · exact h.newest i call t hturn hcall₀ ht
    · exact h.newest i own t hturn hown (hkeeps t ht)
  · intro i j call later t hcall hlater hkey ht hnew hafter
    obtain ⟨call₀, hcall₀, hkey₀, -, -, hsame⟩ := before_done hown outcome hcall
    obtain ⟨later₀, hlater₀, hkey₁, hbegan, horigin₁, -⟩ := before_done hown outcome hlater
    have ht₀ : Stamped port call₀ t := by
      rcases hsame with rfl | ⟨rfl, rfl⟩
      · exact ht
      · rw [hown] at hcall₀
        cases hcall₀
        exact hkeeps t ht
    have hspaced := h.spaced hturn i j call₀ later₀ t hcall₀ hlater₀ (hkey₀.trans (hkey.trans hkey₁.symm)) ht₀
      (horigin₁ ▸ hnew) (hbegan ▸ hafter)
    rwa [hbegan] at hspaced

include horigin

/-- The value is stored. -/
theorem Inv.store [DecidableEq κ] (h : Inv port maxAge s) (hport : port.shared = false) (v : ν) :
    Inv port maxAge (({ s with calls := s.calls.set c (own.done s.now (.value v)) } : State κ ν ε).put own.key
      ⟨c, if port.atStart then own.began else s.now⟩) := by
  have hnot : port.shared ≠ true := by rw [hport]; exact Bool.false_ne_true
  have hstamped : ∀ t, Stamped port (own.done s.now (.value v)) t ↔ t = if port.atStart then own.began else s.now := by
    intro t
    rw [stamped_done_iff horigin, if_neg hnot, and_iff_right ⟨v, rfl⟩]
  have hfilled := h.toFilled.done hown hended (.value v)
  refine ⟨⟨hfilled.began, hfilled.ended, fun key e he => ?_, hfilled.served⟩, fun i call t hturn hcall ht => ?_,
    fun hturn => ?_⟩
  · by_cases hkey : key = own.key
    · rw [hkey, put_cache_self] at he
      cases he
      exact ⟨_, (getElem?_done hown).mpr (.inl ⟨rfl, rfl⟩), hkey.symm, (hstamped _).mpr rfl⟩
    · rw [put_cache_of_ne hkey] at he
      exact hfilled.cache key e he
  · have hnow : port.atStart ≠ true := by rw [hturn.resolve_left hnot]; exact Bool.false_ne_true
    by_cases hkey : call.key = own.key
    · refine ⟨_, by rw [hkey, put_cache_self], ?_⟩
      rw [if_neg hnow]
      exact ht.le_now hfilled hcall
    · rw [put_cache_of_ne hkey]
      obtain ⟨call₀, hcall₀, -, -, -, rfl | ⟨-, rfl⟩⟩ := before_done hown _ hcall
      · exact h.newest i call t hturn hcall₀ ht
      · exact absurd rfl hkey
  · intro i j call later t hcall hlater hkey ht hnew hafter
    have hnow : port.atStart ≠ true := by rw [hturn.resolve_left hnot]; exact Bool.false_ne_true
    obtain ⟨call₀, hcall₀, hkey₀, -, -, hsame⟩ := before_done hown _ hcall
    obtain ⟨later₀, hlater₀, hkey₁, hbegan, horigin₁, -⟩ := before_done hown _ hlater
    rcases hsame with rfl | ⟨rfl, rfl⟩
    · have hspaced := h.spaced hturn i j call later₀ t hcall₀ hlater₀ (hkey.trans hkey₁.symm) ht
        (horigin₁ ▸ hnew) (hbegan ▸ hafter)
      rwa [hbegan] at hspaced
    · -- The entry is as young as can be, and no call has begun later.
      have hlt := hafter.resolve_right fun h => hnot h.1
      rw [(hstamped t).mp ht, if_neg hnow] at hlt
      exact absurd hlt (Nat.not_lt.mpr (hfilled.began j later hlater))

end

/-- Time passes. -/
theorem Inv.tick (h : Inv port maxAge s) (ms : ℕ) : Inv port maxAge { s with now := s.now + ms } where
  began i call hcall := (h.began i call hcall).trans (Nat.le_add_right ..)
  ended i call t outcome hcall ht := (h.ended i call t outcome hcall ht).trans (Nat.le_add_right ..)
  cache := h.cache
  served := h.served
  newest := h.newest
  spaced := h.spaced

theorem served_of_hit (h : Inv port maxAge s) {key : κ} {e : Entry} (hhit : s.hit maxAge key = some e) :
    ∃ own, s.calls[e.call]? = some own ∧ Served port maxAge ⟨key, s.now, .served e.call, none⟩ own := by
  obtain ⟨he, hyoung⟩ := Option.filter_eq_some_iff.mp hhit
  obtain ⟨own, hown, hkey, hstamped⟩ := h.cache key e he
  refine ⟨own, hown, hkey, ⟨e.timestamp, hstamped, hstamped.le_now h.toFilled hown, of_decide_eq_true hyoung⟩, ?_⟩
  intro hport
  obtain ⟨-, ht⟩ := hstamped
  rw [hport] at ht
  obtain ⟨ended, v, hended, -⟩ := ht
  exact ⟨ended, v, hended, h.ended e.call own ended _ hown hended⟩

theorem Inv.begin [DecidableEq κ] (h : Inv port maxAge s) (key : κ) (throws : Option ε) :
    Inv port maxAge (s.begin port maxAge key throws) := by
  unfold State.begin
  split
  · next e hhit =>
    refine h.add rfl nofun (fun t ht => absurd ht.1 nofun) (fun o ho => ?_) fun hnot => absurd rfl (hnot e.call)
    cases ho
    exact served_of_hit h hhit
  · next hmiss =>
    cases throws with
    | some err =>
      refine h.add rfl (fun t outcome ht => ?_) (fun t ht => absurd ht.1 nofun) nofun fun _ => hmiss
      cases ht
      exact le_rfl
    | none =>
      dsimp only
      split
      · next hport => exact h.add_shared hport hmiss
      · next hport =>
        refine h.add rfl nofun (fun t ht => ?_) nofun fun _ => hmiss
        obtain ⟨-, ht⟩ := ht
        rw [if_neg hport] at ht
        obtain ⟨ended, v, hended, -⟩ := ht
        cases hended

theorem Inv.finish [DecidableEq κ] (h : Inv port maxAge s) {c : ℕ} {own : Call κ ν ε} (hown : s.calls[c]? = some own)
    (horigin : own.origin = .invoked) (hended : own.ended = none) (outcome : Outcome ν ε) :
    Inv port maxAge (s.finish port c own outcome) := by
  unfold State.finish
  dsimp only
  split
  · next hport =>
    refine h.done hown hended outcome fun t ht => ⟨horigin, ?_⟩
    rw [stamped_done_iff horigin, if_pos hport] at ht
    rwa [if_pos hport]
  · next hport =>
    cases outcome with
    | value v => exact h.store hown horigin hended (Bool.not_eq_true _ ▸ hport) v
    | failed err =>
      refine h.done hown hended _ fun t ht => ?_
      rw [stamped_done_iff horigin, if_neg hport] at ht
      obtain ⟨⟨v, hv⟩, -⟩ := ht
      cases hv

theorem inv_of_reach [DecidableEq κ] (h : (machine port maxAge).Reach anyStep s) : Inv port maxAge s := by
  refine h.invariant (Inv port maxAge) ⟨⟨nofun, nofun, nofun, nofun⟩, nofun, fun _ => nofun⟩ fun s a s' hs _ hstep => ?_
  cases a with
  | tick ms =>
    cases hstep
    exact hs.tick ms
  | call key throws =>
    cases hstep
    exact hs.begin key throws
  | finish c outcome =>
    change (match s.calls[c]? with | some call => _ | none => none) = some s' at hstep
    split at hstep
    · next call hcall =>
      obtain ⟨⟨horigin, hended⟩, heq⟩ := Option.ite_none_right_eq_some.mp hstep
      cases heq
      exact hs.finish hcall horigin (Option.isNone_iff_eq_none.mp hended) outcome
    · cases hstep

/-! ## What the caches promise -/

/-- Calls of one key share one invocation, whatever becomes of it, for the whole age. -/
structure Shares (maxAge : ℕ) (s : State κ ν ε) : Prop where
  answers (i o : ℕ) (call : Call κ ν ε) : s.calls[i]? = some call → call.origin = .served o →
    ∃ own, s.calls[o]? = some own ∧ own.key = call.key ∧ own.origin = .invoked ∧
      own.began ≤ call.began ∧ call.began - own.began < maxAge
  once (i j : ℕ) (call later : Call κ ν ε) : s.calls[i]? = some call → s.calls[j]? = some later → i < j →
    call.key = later.key → call.origin = .invoked → (∀ o, later.origin ≠ .served o) →
    call.began + maxAge ≤ later.began

/-- The cache answers with values of handlers that were called not too long before. -/
structure FreshAtStart (maxAge : ℕ) (s : State κ ν ε) : Prop where
  answers (i o : ℕ) (call : Call κ ν ε) : s.calls[i]? = some call → call.origin = .served o →
    ∃ own ended v, s.calls[o]? = some own ∧ own.key = call.key ∧ own.origin = .invoked ∧
      own.ended = some (ended, .value v) ∧ ended ≤ call.began ∧ call.began - own.began < maxAge

/-- The cache answers with values that are not too old, and no handler is called while there is one. -/
structure FreshAtEnd (maxAge : ℕ) (s : State κ ν ε) : Prop where
  answers (i o : ℕ) (call : Call κ ν ε) : s.calls[i]? = some call → call.origin = .served o →
    ∃ own ended v, s.calls[o]? = some own ∧ own.key = call.key ∧ own.origin = .invoked ∧
      own.ended = some (ended, .value v) ∧ ended ≤ call.began ∧ call.began - ended < maxAge
  once (i j : ℕ) (call later : Call κ ν ε) (ended : ℕ) (v : ν) : s.calls[i]? = some call → s.calls[j]? = some later →
    call.key = later.key → call.origin = .invoked → call.ended = some (ended, .value v) →
    (∀ o, later.origin ≠ .served o) → ended < later.began → ended + maxAge ≤ later.began

theorem Inv.shares (h : Inv customMemoize maxAge s) : Shares maxAge s where
  answers i o call hcall ho := by
    obtain ⟨own, hown, hkey, ⟨t, ⟨horigin, ht⟩, hle, hyoung⟩, -⟩ := h.served i o call hcall ho
    have hbegan : t = own.began := ht
    subst hbegan
    exact ⟨own, hown, hkey, horigin, hle, hyoung⟩
  once i j call later hcall hlater hij hkey horigin hnew :=
    h.spaced (.inl rfl) i j call later call.began hcall hlater hkey ⟨horigin, rfl⟩ hnew (.inr ⟨rfl, hij⟩)

theorem Inv.freshAtStart (h : Inv memoize maxAge s) : FreshAtStart maxAge s where
  answers i o call hcall ho := by
    obtain ⟨own, hown, hkey, ⟨t, ⟨horigin, stored, u, hstored, hat⟩, -, hyoung⟩, hready⟩ := h.served i o call hcall ho
    obtain ⟨ended, v, hended, hle⟩ := hready rfl
    have hbegan : t = own.began := hat
    subst hbegan
    exact ⟨own, ended, v, hown, hkey, horigin, hended, hle, hyoung⟩

theorem Inv.freshAtEnd (h : Inv cachePut maxAge s) : FreshAtEnd maxAge s where
  answers i o call hcall ho := by
    obtain ⟨own, hown, hkey, ⟨t, hstamped, hle, hyoung⟩, -⟩ := h.served i o call hcall ho
    obtain ⟨horigin, ended, v, hended, hat⟩ := hstamped
    have htime : t = ended := hat
    subst htime
    exact ⟨own, t, v, hown, hkey, horigin, hended, hle, hyoung⟩
  once i j call later ended v hcall hlater hkey horigin hended hnew hafter :=
    h.spaced (.inr rfl) i j call later ended hcall hlater hkey ⟨horigin, ended, v, hended, rfl⟩ hnew (.inl hafter)

end TypeFerry.Server.MethodCaches
