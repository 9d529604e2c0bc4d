import Mathlib.Logic.Function.Basic
import TypeFerry.Lib.Runs

/-! # The method cache of the Go server

`Server.Call` of a method that is cached, for the calls whose parameters come to one key. A
call looks into the cache under the lock, and either waits at the entry that it finds or makes
one and runs the handler, whose result it stores under the lock again. The handler runs under
the context of the call that made the entry. -/
namespace TypeFerry.Go.MethodCache
open TypeFerry.Lib.Runs

variable {ν ε : Type}

/-- `(ejson.Value, error)`. -/
inductive Result (ν ε : Type) where
  | value (v : ν)
  | failed (err : ε)
  | panicked
  /-- The error comes from the context of this call, which was cancelled. -/
  | cancelled (call : ℕ)
  deriving DecidableEq

def Result.isCancelled : Result ν ε → Bool
  | .cancelled _ => true
  | _ => false

/-- What a handler does. -/
inductive Return (ν ε : Type) where
  | value (v : ν)
  | failed (err : ε)
  | panicked
  /-- It gives up because its context was cancelled. -/
  | cancelled
  deriving DecidableEq

/-- `invoke`, in the context of a call. -/
def Return.result (call : ℕ) : Return ν ε → Result ν ε
  | .value v => .value v
  | .failed err => .failed err
  | .panicked => .panicked
  | .cancelled => .cancelled call

structure Entry (ν ε : Type) where
  created : ℕ
  executor : ℕ
  /-- how often the handler was invoked -/
  invocations : ℕ
  /-- The value and the error, when the entry is ready. -/
  result : Option (Result ν ε)
  deriving DecidableEq

inductive Phase (ν ε : Type) where
  | arrived
  /-- It made the entry and has not invoked the handler yet. -/
  | created (entry : ℕ)
  | running (entry : ℕ)
  /-- The handler has returned. -/
  | storing (entry : ℕ) (result : Result ν ε)
  | waiting (entry : ℕ)
  | returned (entry : ℕ) (joined : Bool) (result : Result ν ε)
  deriving DecidableEq

structure Call (ν ε : Type) where
  phase : Phase ν ε
  /-- Its context is done. -/
  cancelled : Bool
  deriving DecidableEq

structure State (ν ε : Type) where
  now : ℕ
  calls : ℕ → Call ν ε
  arrived : ℕ
  entries : ℕ → Entry ν ε
  next : ℕ
  /-- `entry.cache[key]` -/
  cache : Option ℕ

def init : State ν ε := ⟨0, fun _ => ⟨.arrived, false⟩, 0, fun _ => ⟨0, 0, 0, none⟩, 0, none⟩

inductive Action (ν ε : Type) where
  | tick (ns : ℕ)
  | arrive
  | cancel (call : ℕ)
  | lookup (call : ℕ)
  | invoke (call : ℕ)
  | finish (call : ℕ) (ret : Return ν ε)
  | store (call : ℕ)
  /-- `case <-cached.ready` -/
  | receive (call : ℕ)
  /-- `case <-ctx.Done()` -/
  | abandon (call : ℕ)

namespace State
variable (maxAge : ℕ)

def setPhase (s : State ν ε) (call : ℕ) (phase : Phase ν ε) : State ν ε :=
  { s with calls := Function.update s.calls call ⟨phase, (s.calls call).cancelled⟩ }

def setEntry (s : State ν ε) (entry : ℕ) (e : Entry ν ε) : State ν ε :=
  { s with entries := Function.update s.entries entry e }

/-- The entry that is young enough. -/
def fresh (s : State ν ε) : Option ℕ := s.cache.filter fun e => s.now - (s.entries e).created < maxAge

def lookup (s : State ν ε) (call : ℕ) : State ν ε :=
  match s.fresh maxAge with
  | some e => s.setPhase call (.waiting e)
  | none =>
    { (s.setEntry s.next ⟨s.now, call, 0, none⟩).setPhase call (.created s.next) with
      next := s.next + 1, cache := some s.next }

def invoke (s : State ν ε) (call e : ℕ) : State ν ε :=
  (s.setEntry e { s.entries e with invocations := (s.entries e).invocations + 1 }).setPhase call (.running e)

def store (s : State ν ε) (call e : ℕ) (r : Result ν ε) : State ν ε :=
  (s.setEntry e { s.entries e with result := some r }).setPhase call (.returned e false r)

end State

/-- A handler fails with its context only when that is done. -/
def possible (s : State ν ε) (call : ℕ) : Return ν ε → Bool
  | .cancelled => (s.calls call).cancelled
  | _ => true

def step (maxAge : ℕ) (s : State ν ε) : Action ν ε → Option (State ν ε)
  | .tick ns => some { s with now := s.now + ns }
  | .arrive => some { s.setPhase s.arrived .arrived with arrived := s.arrived + 1 }
  | .cancel c => some { s with calls := Function.update s.calls c { s.calls c with cancelled := true } }
  | .lookup c =>
    if c < s.arrived then
      match (s.calls c).phase with
      | .arrived => some (s.lookup maxAge c)
      | _ => none
    else none
  | .invoke c =>
    match (s.calls c).phase with
    | .created e => some (s.invoke c e)
    | _ => none
  | .finish c ret =>
    match (s.calls c).phase with
    | .running e => if possible s c ret then some (s.setPhase c (.storing e (ret.result c))) else none
    | _ => none
  | .store c =>
    match (s.calls c).phase with
    | .storing e r => some (s.store c e r)
    | _ => none
  | .receive c =>
    match (s.calls c).phase with
    | .waiting e => (s.entries e).result.map fun r => s.setPhase c (.returned e true r)
    | _ => none
  | .abandon c =>
    match (s.calls c).phase with
    | .waiting e => if (s.calls c).cancelled then some (s.setPhase c (.returned e true (.cancelled c))) else none
    | _ => none

def machine (maxAge : ℕ) : Machine (State ν ε) (Action ν ε) := ⟨init, step maxAge⟩

/-! ## What every step keeps -/

/-- The entry that a call has made. -/
def Phase.executes : Phase ν ε → Option ℕ
  | .created e | .running e | .storing e _ | .returned e false _ => some e
  | _ => none

/-- `c` made the entry, which is in this state. -/
structure Runs (s : State ν ε) (c e n : ℕ) (r : Option (Result ν ε)) : Prop where
  lt : e < s.next
  executor : (s.entries e).executor = c
  invocations : (s.entries e).invocations = n
  result : (s.entries e).result = r

/-- A result that comes from a context comes from that of `c`. -/
def Own (c : ℕ) (r : Result ν ε) : Prop := ∀ c', r = .cancelled c' → c' = c

def CallOk (s : State ν ε) (c : ℕ) : Prop :=
  match (s.calls c).phase with
  | .arrived => True
  | .created e => Runs s c e 0 none
  | .running e => Runs s c e 1 none
  | .storing e r => Runs s c e 1 none ∧ Own c r
  | .waiting e => e < s.next ∧ c < s.arrived
  | .returned e false r => Runs s c e 1 (some r) ∧ Own c r
  | .returned e true r => e < s.next ∧
    ((s.entries e).result = some r ∨ r = .cancelled c ∧ (s.calls c).cancelled = true)

structure Inv (maxAge : ℕ) (s : State ν ε) : Prop where
  cache : ∀ e, s.cache = some e → e + 1 = s.next
  empty : s.cache = none → s.next = 0
  created : ∀ e, e < s.next → (s.entries e).created ≤ s.now
  apart : ∀ e e', e < e' → e' < s.next → (s.entries e).created + maxAge ≤ (s.entries e').created
  executor : ∀ e, e < s.next →
    (s.entries e).executor < s.arrived ∧ (s.calls (s.entries e).executor).phase.executes = some e
  call : ∀ c, CallOk s c

section
variable {maxAge : ℕ} {s s' : State ν ε} {c e : ℕ}

theorem CallOk.executes (h : CallOk s c) (he : (s.calls c).phase.executes = some e) :
    (s.entries e).executor = c := by
  rw [CallOk] at h
  split at h <;> simp only [*, Phase.executes, Option.some.injEq, reduceCtorEq] at he <;> subst he
  · exact h.executor
  · exact h.executor
  · exact h.1.executor
  · exact h.1.executor

/-- What is left alone by a step of another call. -/
structure Apart (s s' : State ν ε) (c : ℕ) : Prop where
  phase : (s'.calls c).phase = (s.calls c).phase
  cancelled : (s.calls c).cancelled = true → (s'.calls c).cancelled = true
  arrived : s.arrived ≤ s'.arrived
  next : s.next ≤ s'.next
  entries : ∀ e, e < s.next → (s.entries e).executor = c → s'.entries e = s.entries e
  results : ∀ e r, e < s.next → (s.entries e).result = some r → (s'.entries e).result = some r

theorem Runs.apart {n : ℕ} {r : Option (Result ν ε)} (h : Runs s c e n r) (ha : Apart s s' c) :
    Runs s' c e n r := by
  have heq := ha.entries e h.lt h.executor
  exact ⟨h.lt.trans_le ha.next, by rw [heq]; exact h.executor, by rw [heq]; exact h.invocations,
    by rw [heq]; exact h.result⟩

theorem CallOk.apart (h : CallOk s c) (ha : Apart s s' c) : CallOk s' c := by
  rw [CallOk] at h ⊢
  rw [ha.phase]
  split at h
  · trivial
  · exact h.apart ha
  · exact h.apart ha
  · exact ⟨h.1.apart ha, h.2⟩
  · exact ⟨h.1.trans_le ha.next, h.2.trans_le ha.arrived⟩
  · exact ⟨h.1.apart ha, h.2⟩
  · refine ⟨h.1.trans_le ha.next, ?_⟩
    rcases h.2 with hresult | ⟨hr, hcancelled⟩
    · exact .inl (ha.results _ _ h.1 hresult)
    · exact .inr ⟨hr, ha.cancelled hcancelled⟩

/-- A step of the call `c`, which may change the entry that it has made. -/
structure Moves (s s' : State ν ε) (c : ℕ) : Prop where
  others : ∀ c', c' ≠ c → s'.calls c' = s.calls c'
  cancelled : (s'.calls c).cancelled = (s.calls c).cancelled
  now : s'.now = s.now
  arrived : s.arrived ≤ s'.arrived
  next : s'.next = s.next
  cache : s'.cache = s.cache
  executes : (s'.calls c).phase.executes = (s.calls c).phase.executes
  entry : ∀ e, s'.entries e = s.entries e ∨ (s.entries e).executor = c ∧ (s.entries e).result = none ∧
    (s'.entries e).created = (s.entries e).created ∧ (s'.entries e).executor = (s.entries e).executor

theorem Moves.apart (h : Moves s s' c) {c' : ℕ} (hne : c' ≠ c) : Apart s s' c' where
  phase := by rw [h.others c' hne]
  cancelled hcancelled := by rw [h.others c' hne]; exact hcancelled
  arrived := h.arrived
  next := h.next.ge
  entries e _ hexecutor := (h.entry e).resolve_right fun hc => hne (hexecutor.symm.trans hc.1)
  results e r _ hr := by
    rcases h.entry e with heq | ⟨-, hnone, -⟩
    · rw [heq]; exact hr
    · rw [hr] at hnone; cases hnone

theorem Inv.moves (h : Inv maxAge s) (hm : Moves s s' c) (hc : CallOk s' c) : Inv maxAge s' := by
  have hcreated : ∀ e, (s'.entries e).created = (s.entries e).created := fun e => by
    rcases hm.entry e with heq | ⟨-, -, heq, -⟩ <;> rw [heq]
  have hexecutor : ∀ e, (s'.entries e).executor = (s.entries e).executor := fun e => by
    rcases hm.entry e with heq | ⟨-, -, -, heq⟩ <;> rw [heq]
  refine ⟨by rw [hm.cache, hm.next]; exact h.cache, by rw [hm.cache, hm.next]; exact h.empty, fun e he => ?_,
    fun e e' hlt he' => ?_, fun e he => ?_, fun c' => ?_⟩
  · rw [hcreated, hm.now]
    exact h.created e (hm.next ▸ he)
  · rw [hcreated, hcreated]
    exact h.apart e e' hlt (hm.next ▸ he')
  · obtain ⟨hlt, hexecutes⟩ := h.executor e (hm.next ▸ he)
    rw [hexecutor]
    refine ⟨hlt.trans_le hm.arrived, ?_⟩
    by_cases heq : (s.entries e).executor = c
    · rw [heq, hm.executes, ← heq]
      exact hexecutes
    · rw [hm.others _ heq]
      exact hexecutes
  · by_cases heq : c' = c
    · exact heq ▸ hc
    · exact (h.call c').apart (hm.apart heq)

@[simp] theorem setPhase_calls_self (phase : Phase ν ε) :
    (s.setPhase c phase).calls c = ⟨phase, (s.calls c).cancelled⟩ := Function.update_self ..

theorem setPhase_calls_of_ne {c' : ℕ} (hne : c' ≠ c) (phase : Phase ν ε) :
    (s.setPhase c phase).calls c' = s.calls c' := Function.update_of_ne hne ..

theorem moves_setPhase {phase : Phase ν ε} (hphase : phase.executes = (s.calls c).phase.executes) :
    Moves s (s.setPhase c phase) c where
  others _ hne := setPhase_calls_of_ne hne phase
  cancelled := by rw [setPhase_calls_self]
  now := rfl
  arrived := le_refl _
  next := rfl
  cache := rfl
  executes := by rw [setPhase_calls_self]; exact hphase
  entry _ := .inl rfl

theorem moves_setEntry {entry : Entry ν ε} {phase : Phase ν ε} (hexecutor : (s.entries e).executor = c)
    (hresult : (s.entries e).result = none) (hcreated : entry.created = (s.entries e).created)
    (hsame : entry.executor = (s.entries e).executor) (hphase : phase.executes = (s.calls c).phase.executes) :
    Moves s ((s.setEntry e entry).setPhase c phase) c := by
  have hm := moves_setPhase (s := s.setEntry e entry) hphase
  refine ⟨hm.others, hm.cancelled, hm.now, hm.arrived, hm.next, hm.cache, hm.executes, fun e' => ?_⟩
  show Function.update s.entries e entry e' = _ ∨ _ ∧ _ ∧ (Function.update s.entries e entry e').created = _ ∧
    (Function.update s.entries e entry e').executor = _
  by_cases heq : e' = e
  · subst heq
    rw [Function.update_self]
    exact .inr ⟨hexecutor, hresult, hcreated, hsame⟩
  · exact .inl (Function.update_of_ne heq ..)

/-- An entry that is not young enough, if there is one, is replaced. -/
theorem Inv.make (h : Inv maxAge s) (hc : c < s.arrived) (hphase : (s.calls c).phase = .arrived)
    (hfresh : s.fresh maxAge = none) : Inv maxAge (s.lookup maxAge c) := by
  rw [State.lookup, hfresh]
  have hnew : ∀ e, e < s.next → Function.update s.entries s.next ⟨s.now, c, 0, none⟩ e = s.entries e :=
    fun e he => Function.update_of_ne (Nat.ne_of_lt he) ..
  -- The call has made no entry before.
  have hnone : ∀ e, e < s.next → (s.entries e).executor ≠ c := fun e he heq => by
    have hexecutes := (h.executor e he).2
    rw [heq, hphase] at hexecutes
    cases hexecutes
  refine ⟨fun e he => ?_, fun he => (by cases he), fun e he => ?_, fun e e' hlt he' => ?_, fun e he => ?_, fun c' => ?_⟩
  · rw [← Option.some.inj he]
  · show (Function.update s.entries s.next _ e).created ≤ s.now
    rcases Nat.lt_succ_iff_lt_or_eq.mp he with he | rfl
    · rw [hnew e he]
      exact h.created e he
    · rw [Function.update_self]
  · show (Function.update s.entries s.next _ e).created + maxAge ≤ (Function.update s.entries s.next _ e').created
    rcases Nat.lt_succ_iff_lt_or_eq.mp he' with he' | rfl
    · rw [hnew e (hlt.trans he'), hnew e' he']
      exact h.apart e e' hlt he'
    · rw [hnew e hlt, Function.update_self]
      show (s.entries e).created + maxAge ≤ s.now
      cases hcache : s.cache with
      | none =>
        have hempty := h.empty hcache
        omega
      | some last =>
        have hlast := h.cache last hcache
        have hold : (s.entries last).created + maxAge ≤ s.now := by
          rw [State.fresh, hcache, Option.filter_some] at hfresh
          by_contra hlt
          have hcreated := h.created last (by omega)
          rw [if_pos (decide_eq_true (by omega))] at hfresh
          cases hfresh
        rcases Nat.lt_succ_iff_lt_or_eq.mp (show e < last + 1 by omega) with hlt | rfl
        · exact ((h.apart e last hlt (by omega)).trans (h.created last (by omega))).trans (le_refl _)
        · exact hold
  · show (Function.update s.entries s.next _ e).executor < s.arrived ∧
      (((s.setEntry s.next _).setPhase c (.created s.next)).calls
        (Function.update s.entries s.next _ e).executor).phase.executes = some e
    rcases Nat.lt_succ_iff_lt_or_eq.mp he with he | rfl
    · rw [hnew e he, setPhase_calls_of_ne (hnone e he)]
      exact h.executor e he
    · rw [Function.update_self]
      simp only [setPhase_calls_self]
      exact ⟨hc, rfl⟩
  · by_cases heq : c' = c
    · subst heq
      simp only [CallOk, setPhase_calls_self]
      exact ⟨Nat.lt_succ_self _, by simp [State.setPhase, State.setEntry], by simp [State.setPhase, State.setEntry],
        by simp [State.setPhase, State.setEntry]⟩
    · refine (h.call c').apart ⟨?_, ?_, le_refl _, Nat.le_succ _, fun e he _ => hnew e he, fun e r he hr => ?_⟩
      · show (((s.setEntry s.next _).setPhase c (.created s.next)).calls c').phase = _
        rw [setPhase_calls_of_ne heq]
        rfl
      · show _ → (((s.setEntry s.next _).setPhase c (.created s.next)).calls c').cancelled = true
        rw [setPhase_calls_of_ne heq]
        exact id
      · show (Function.update s.entries s.next _ e).result = some r
        rw [hnew e he]
        exact hr

theorem Inv.lookup (h : Inv maxAge s) (hc : c < s.arrived) (hphase : (s.calls c).phase = .arrived) :
    Inv maxAge (s.lookup maxAge c) := by
  cases hfresh : s.fresh maxAge with
  | none => exact h.make hc hphase hfresh
  | some e =>
    rw [State.lookup, hfresh]
    refine h.moves (moves_setPhase (by rw [hphase]; rfl)) ?_
    have hnext := h.cache e (Option.filter_eq_some_iff.mp hfresh).1
    simp only [CallOk, setPhase_calls_self]
    exact ⟨by show e < s.next; omega, hc⟩

theorem Inv.invoke (h : Inv maxAge s) (hphase : (s.calls c).phase = .created e) : Inv maxAge (s.invoke c e) := by
  have hruns := h.call c
  rw [CallOk, hphase] at hruns
  refine h.moves (moves_setEntry hruns.executor hruns.result rfl rfl (by rw [hphase]; rfl)) ?_
  simp only [CallOk, State.invoke, setPhase_calls_self]
  refine ⟨hruns.lt, ?_, ?_, ?_⟩ <;> simp [State.setPhase, State.setEntry, hruns.executor, hruns.invocations, hruns.result]

theorem Inv.store (h : Inv maxAge s) {r : Result ν ε} (hphase : (s.calls c).phase = .storing e r) :
    Inv maxAge (s.store c e r) := by
  have hruns := h.call c
  rw [CallOk, hphase] at hruns
  refine h.moves (moves_setEntry hruns.1.executor hruns.1.result rfl rfl (by rw [hphase]; rfl)) ?_
  simp only [CallOk, State.store, setPhase_calls_self]
  refine ⟨⟨hruns.1.lt, ?_, ?_, ?_⟩, hruns.2⟩ <;>
    simp [State.setPhase, State.setEntry, hruns.1.executor, hruns.1.invocations]

theorem own_result (c : ℕ) (ret : Return ν ε) : Own c (ret.result c) := by
  intro c' heq
  cases ret <;> cases heq
  rfl

theorem Inv.step {a : Action ν ε} (h : Inv maxAge s) (hs : step maxAge s a = some s') : Inv maxAge s' := by
  cases a with
  | tick ns =>
    obtain rfl := Option.some.inj hs
    refine ⟨h.cache, h.empty, fun e he => (h.created e he).trans (Nat.le_add_right ..), h.apart, h.executor,
      fun c => (h.call c).apart ⟨rfl, id, le_refl _, le_refl _, fun _ _ _ => rfl, fun _ _ _ hr => hr⟩⟩
  | arrive =>
    obtain rfl := Option.some.inj hs
    -- The new call has made no entry.
    have hne : ∀ e, e < s.next → (s.entries e).executor ≠ s.arrived := fun e he => (h.executor e he).1.ne
    refine ⟨h.cache, h.empty, h.created, h.apart, fun e he => ⟨(h.executor e he).1.trans (Nat.lt_succ_self _), ?_⟩,
      fun c => ?_⟩
    · show ((s.setPhase s.arrived .arrived).calls (s.entries e).executor).phase.executes = some e
      rw [setPhase_calls_of_ne (hne e he)]
      exact (h.executor e he).2
    · by_cases heq : c = s.arrived
      · subst heq
        simp [CallOk]
      · refine (h.call c).apart ⟨?_, ?_, Nat.le_succ _, le_refl _, fun _ _ _ => rfl, fun _ _ _ hr => hr⟩
        · show ((s.setPhase s.arrived .arrived).calls c).phase = _
          rw [setPhase_calls_of_ne heq]
        · show _ → ((s.setPhase s.arrived .arrived).calls c).cancelled = true
          rw [setPhase_calls_of_ne heq]
          exact id
  | cancel c =>
    obtain rfl := Option.some.inj hs
    have hphase : ∀ c', (Function.update s.calls c { s.calls c with cancelled := true } c').phase =
        (s.calls c').phase := fun c' => by
      by_cases heq : c' = c
      · rw [heq, Function.update_self]
      · rw [Function.update_of_ne heq]
    refine ⟨h.cache, h.empty, h.created, h.apart, fun e he => ⟨(h.executor e he).1, ?_⟩, fun c' => ?_⟩
    · show (Function.update s.calls c { s.calls c with cancelled := true } _).phase.executes = _
      rw [hphase]
      exact (h.executor e he).2
    · refine (h.call c').apart ⟨hphase c', fun hcancelled => ?_, le_refl _, le_refl _, fun _ _ _ => rfl,
        fun _ _ _ hr => hr⟩
      show (Function.update s.calls c { s.calls c with cancelled := true } c').cancelled = true
      by_cases heq : c' = c
      · rw [heq, Function.update_self]
      · rw [Function.update_of_ne heq]
        exact hcancelled
  | lookup c =>
    simp only [MethodCache.step] at hs
    split at hs
    · next hc =>
      split at hs
      · next hphase =>
        obtain rfl := Option.some.inj hs
        exact h.lookup hc hphase
      · cases hs
    · cases hs
  | invoke c =>
    simp only [MethodCache.step] at hs
    split at hs
    · next e hphase =>
      obtain rfl := Option.some.inj hs
      exact h.invoke hphase
    · cases hs
  | finish c ret =>
    simp only [MethodCache.step] at hs
    split at hs
    · next e hphase =>
      split at hs
      · obtain rfl := Option.some.inj hs
        have hruns := h.call c
        rw [CallOk, hphase] at hruns
        refine h.moves (moves_setPhase (by rw [hphase]; rfl)) ?_
        simp only [CallOk, setPhase_calls_self]
        exact ⟨⟨hruns.lt, hruns.executor, hruns.invocations, hruns.result⟩, own_result c ret⟩
      · cases hs
    · cases hs
  | store c =>
    simp only [MethodCache.step] at hs
    split at hs
    · next e r hphase =>
      obtain rfl := Option.some.inj hs
      exact h.store hphase
    · cases hs
  | receive c =>
    simp only [MethodCache.step] at hs
    split at hs
    · next e hphase =>
      obtain ⟨r, hr, rfl⟩ := Option.map_eq_some_iff.mp hs
      have hwaiting := h.call c
      rw [CallOk, hphase] at hwaiting
      refine h.moves (moves_setPhase (by rw [hphase]; rfl)) ?_
      simp only [CallOk, setPhase_calls_self]
      exact ⟨hwaiting.1, .inl hr⟩
    · cases hs
  | abandon c =>
    simp only [MethodCache.step] at hs
    split at hs
    · next e hphase =>
      split at hs
      · next hcancelled =>
        obtain rfl := Option.some.inj hs
        have hwaiting := h.call c
        rw [CallOk, hphase] at hwaiting
        refine h.moves (moves_setPhase (by rw [hphase]; rfl)) ?_
        simp only [CallOk, setPhase_calls_self]
        exact ⟨hwaiting.1, .inr ⟨trivial, hcancelled⟩⟩
      · cases hs
    · cases hs

end

/-! ## Handlers that give up -/

/-- What the handler of an entry has returned. -/
def outcome (s : State ν ε) (e : ℕ) : Option (Result ν ε) :=
  match (s.entries e).result with
  | some r => some r
  | none =>
    match (s.calls (s.entries e).executor).phase with
    | .storing _ r => some r
    | _ => none

/-- The handler of an entry failed with the context of its call. -/
def gaveUp (s : State ν ε) (e : ℕ) : Bool := (outcome s e).any Result.isCancelled

def waitsFor (s : State ν ε) (c c' : ℕ) : Bool :=
  match (s.calls c).phase, (s.calls c').phase with
  | .running e, .waiting e' => e = e'
  | _, _ => false

/-- Nobody whose own context is not done waits at an entry whose handler gives up, or comes to it
afterwards. -/
def orderly (maxAge : ℕ) (s : State ν ε) : Action ν ε → Prop
  | .finish c .cancelled => ∀ c' < s.arrived, waitsFor s c c' = true → (s.calls c').cancelled = true
  | .lookup c => ((s.fresh maxAge).all fun e => !gaveUp s e || (s.calls c).cancelled) = true
  | _ => True

instance (maxAge : ℕ) (s : State ν ε) (a : Action ν ε) : Decidable (orderly maxAge s a) := by
  unfold orderly
  split <;> infer_instance

structure Clean (s : State ν ε) : Prop where
  waiting : ∀ {c e}, (s.calls c).phase = .waiting e → gaveUp s e = true → (s.calls c).cancelled = true
  returned : ∀ {c e joined c'}, (s.calls c).phase = .returned e joined (.cancelled c') → c' ≠ c →
    (s.calls c).cancelled = true

section
variable {maxAge : ℕ} {s s' : State ν ε} {c e : ℕ}

theorem gaveUp_congr (hentry : s'.entries e = s.entries e)
    (hphase : (s'.calls (s.entries e).executor).phase = (s.calls (s.entries e).executor).phase) :
    gaveUp s' e = gaveUp s e := by
  rw [gaveUp, gaveUp, outcome, outcome, hentry, hphase]

theorem Moves.gaveUp (h : Moves s s' c) (hne : (s.entries e).executor ≠ c) :
    MethodCache.gaveUp s' e = MethodCache.gaveUp s e :=
  gaveUp_congr ((h.entry e).resolve_right fun hc => hne hc.1) (by rw [h.others _ hne])

theorem Inv.waiting (h : Inv maxAge s) (hphase : (s.calls c).phase = .waiting e) : e < s.next ∧ c < s.arrived := by
  have hc := h.call c
  rwa [CallOk, hphase] at hc

theorem Inv.no_entry (h : Inv maxAge s) (hphase : (s.calls c).phase.executes = none) (he : e < s.next) :
    (s.entries e).executor ≠ c := fun heq => by
  have hexecutes := (h.executor e he).2
  rw [heq, hphase] at hexecutes
  cases hexecutes

theorem Inv.one_entry (h : Inv maxAge s) {e' : ℕ} (hphase : (s.calls c).phase.executes = some e) (he : e' < s.next)
    (heq : (s.entries e').executor = c) : e' = e := by
  have hexecutes := (h.executor e' he).2
  rw [heq, hphase] at hexecutes
  exact (Option.some.inj hexecutes).symm

theorem Clean.moves (hinv : Inv maxAge s) (h : Clean s) (hm : Moves s s' c)
    (hgave : ∀ e, e < s.next → (s.entries e).executor = c → gaveUp s' e = true → gaveUp s e = true ∨
      ∀ c', c' < s.arrived → (s.calls c').phase = .waiting e → (s.calls c').cancelled = true)
    (hwaiting : ∀ e, (s'.calls c).phase = .waiting e → e < s.next ∧ (gaveUp s e = true → (s.calls c).cancelled = true))
    (hreturned : ∀ e joined c', (s'.calls c).phase = .returned e joined (.cancelled c') → c' ≠ c →
      (s.calls c).cancelled = true) : Clean s' := by
  refine ⟨fun {c' e} hphase hgave' => ?_, fun {c' e joined c''} hphase hne => ?_⟩
  · by_cases hself : c' = c
    · subst hself
      rw [hm.cancelled]
      obtain ⟨he, hcancelled⟩ := hwaiting e hphase
      -- It has made no entry, so that entry is another call's.
      have hexecutor := hinv.no_entry (by rw [← hm.executes, hphase]; rfl) he
      exact hcancelled (hm.gaveUp hexecutor ▸ hgave')
    · rw [hm.others c' hself] at hphase ⊢
      obtain ⟨he, hc'⟩ := hinv.waiting hphase
      by_cases hexecutor : (s.entries e).executor = c
      · rcases hgave e he hexecutor hgave' with hgave | hall
        · exact h.waiting hphase hgave
        · exact hall c' hc' hphase
      · exact h.waiting hphase (hm.gaveUp hexecutor ▸ hgave')
  · by_cases hself : c' = c
    · subst hself
      rw [hm.cancelled]
      exact hreturned e joined c'' hphase hne
    · rw [hm.others c' hself] at hphase ⊢
      exact h.returned hphase hne

theorem Clean.lookup (hinv : Inv maxAge s) (h : Clean s) (hphase : (s.calls c).phase = .arrived)
    (hok : orderly maxAge s (.lookup c : Action ν ε)) : Clean (s.lookup maxAge c) := by
  have hnone : (s.calls c).phase.executes = none := by rw [hphase]; rfl
  rw [State.lookup]
  cases hfresh : s.fresh maxAge with
  | some e =>
    rw [orderly, hfresh, Option.all_some, Bool.or_eq_true, Bool.not_eq_true'] at hok
    have hnext := hinv.cache e (Option.filter_eq_some_iff.mp hfresh).1
    refine h.moves hinv (moves_setPhase (by rw [hnone]; rfl))
      (fun e' he' heq => absurd heq (hinv.no_entry hnone he')) (fun e' heq => ?_) (fun e' joined c' heq => ?_)
    · rw [setPhase_calls_self] at heq
      cases heq
      refine ⟨by omega, fun hgave => ?_⟩
      rcases hok with hok | hok
      · rw [hgave] at hok; cases hok
      · exact hok
    · rw [setPhase_calls_self] at heq
      cases heq
  | none =>
    have hnew : ∀ e, e < s.next → Function.update s.entries s.next ⟨s.now, c, 0, none⟩ e = s.entries e :=
      fun e he => Function.update_of_ne (Nat.ne_of_lt he) ..
    refine ⟨fun {c' e} hphase' hgave => ?_, fun {c' e joined c''} hphase' hne => ?_⟩ <;>
      change (((s.setEntry s.next _).setPhase c (.created s.next)).calls c').phase = _ at hphase' <;>
      change (((s.setEntry s.next _).setPhase c (.created s.next)).calls c').cancelled = true <;>
      by_cases hself : c' = c
    · subst hself
      rw [setPhase_calls_self] at hphase'
      cases hphase'
    · rw [setPhase_calls_of_ne hself] at hphase' ⊢
      obtain ⟨he, -⟩ := hinv.waiting hphase'
      refine h.waiting hphase' ((gaveUp_congr (hnew e he) ?_).symm.trans hgave)
      show (((s.setEntry s.next _).setPhase c (.created s.next)).calls _).phase = _
      rw [setPhase_calls_of_ne (hinv.no_entry hnone he)]
      rfl
    · subst hself
      rw [setPhase_calls_self] at hphase'
      cases hphase'
    · rw [setPhase_calls_of_ne hself] at hphase' ⊢
      exact h.returned hphase' hne

theorem gaveUp_of_result {r : Result ν ε} (hresult : (s.entries e).result = some r) :
    gaveUp s e = r.isCancelled := by
  rw [gaveUp, outcome, hresult]
  rfl

theorem gaveUp_of_storing {r : Result ν ε} (e' : ℕ) (hresult : (s.entries e).result = none)
    (hphase : (s.calls (s.entries e).executor).phase = .storing e' r) : gaveUp s e = r.isCancelled := by
  rw [gaveUp, outcome, hresult]
  dsimp only
  rw [hphase]
  rfl

theorem gaveUp_of_running (e' : ℕ) (hresult : (s.entries e).result = none)
    (hphase : (s.calls (s.entries e).executor).phase = .running e') : gaveUp s e = false := by
  rw [gaveUp, outcome, hresult]
  dsimp only
  rw [hphase]
  rfl

theorem Clean.step {a : Action ν ε} (hinv : Inv maxAge s) (h : Clean s) (hok : orderly maxAge s a)
    (hs : step maxAge s a = some s') : Clean s' := by
  cases a with
  | tick ns =>
    obtain rfl := Option.some.inj hs
    exact ⟨h.waiting, h.returned⟩
  | arrive =>
    obtain rfl := Option.some.inj hs
    refine ⟨fun {c e} hphase hgave => ?_, fun {c e joined c'} hphase hne => ?_⟩ <;>
      change ((s.setPhase s.arrived .arrived).calls c).phase = _ at hphase <;>
      change ((s.setPhase s.arrived .arrived).calls c).cancelled = true <;>
      by_cases hself : c = s.arrived
    · rw [hself, setPhase_calls_self] at hphase
      cases hphase
    · rw [setPhase_calls_of_ne hself] at hphase ⊢
      obtain ⟨he, -⟩ := hinv.waiting hphase
      rw [gaveUp_congr (s := s) ?_ ?_] at hgave
      · exact h.waiting hphase hgave
      · rfl
      · show ((s.setPhase s.arrived .arrived).calls _).phase = _
        rw [setPhase_calls_of_ne (hinv.executor e he).1.ne]
    · rw [hself, setPhase_calls_self] at hphase
      cases hphase
    · rw [setPhase_calls_of_ne hself] at hphase ⊢
      exact h.returned hphase hne
  | cancel c =>
    obtain rfl := Option.some.inj hs
    have hphase : ∀ c', (Function.update s.calls c { s.calls c with cancelled := true } c').phase =
        (s.calls c').phase := fun c' => by
      by_cases heq : c' = c
      · rw [heq, Function.update_self]
      · rw [Function.update_of_ne heq]
    have hcancelled : ∀ c', (s.calls c').cancelled = true →
        (Function.update s.calls c { s.calls c with cancelled := true } c').cancelled = true := fun c' h' => by
      by_cases heq : c' = c
      · rw [heq, Function.update_self]
      · rwa [Function.update_of_ne heq]
    refine ⟨fun {c' e} hphase' hgave => hcancelled c' ?_, fun {c' e joined c''} hphase' hne => hcancelled c' ?_⟩
    · rw [gaveUp_congr (s := s) ?_ ?_] at hgave
      · exact h.waiting ((hphase c').symm.trans hphase') hgave
      · rfl
      · exact hphase _
    · exact h.returned ((hphase c').symm.trans hphase') hne
  | lookup c =>
    simp only [MethodCache.step] at hs
    split at hs
    · split at hs
      · next hphase =>
        obtain rfl := Option.some.inj hs
        exact h.lookup hinv hphase hok
      · cases hs
    · cases hs
  | invoke c =>
    simp only [MethodCache.step] at hs
    split at hs
    · next e hphase =>
      obtain rfl := Option.some.inj hs
      have hruns := hinv.call c
      rw [CallOk, hphase] at hruns
      have hexecutes : (s.calls c).phase.executes = some e := by rw [hphase]; rfl
      rw [State.invoke]
      refine h.moves hinv (moves_setEntry hruns.executor hruns.result rfl rfl (by rw [hphase]; rfl))
        (fun e' he' heq hgave => ?_) (fun e' heq => ?_) (fun e' joined c' heq => ?_)
      · obtain rfl := hinv.one_entry hexecutes he' heq
        rw [gaveUp_of_running e' (by simp [State.setPhase, State.setEntry, hruns.result])
          (by simp [State.setPhase, State.setEntry, hruns.executor])] at hgave
        cases hgave
      · rw [setPhase_calls_self] at heq
        cases heq
      · rw [setPhase_calls_self] at heq
        cases heq
    · cases hs
  | finish c ret =>
    simp only [MethodCache.step] at hs
    split at hs
    · next e hphase =>
      split at hs
      · obtain rfl := Option.some.inj hs
        have hruns := hinv.call c
        rw [CallOk, hphase] at hruns
        have hexecutes : (s.calls c).phase.executes = some e := by rw [hphase]; rfl
        refine h.moves hinv (moves_setPhase (by rw [hphase]; rfl))
          (fun e' he' heq hgave => .inr fun c' hc' hwaiting => ?_) (fun e' heq => ?_) (fun e' joined c' heq => ?_)
        · obtain rfl := hinv.one_entry hexecutes he' heq
          have hstoring : ((s.setPhase c (.storing e' (ret.result c))).calls (s.entries e').executor).phase =
              .storing e' (ret.result c) := by rw [heq, setPhase_calls_self]
          rw [gaveUp_of_storing (s := s.setPhase c (.storing e' (ret.result c))) e' hruns.result hstoring] at hgave
          cases ret with
          | cancelled => exact hok c' hc' (by simp [waitsFor, hphase, hwaiting])
          | value | failed | panicked => cases hgave
        · rw [setPhase_calls_self] at heq
          cases heq
        · rw [setPhase_calls_self] at heq
          cases heq
      · cases hs
    · cases hs
  | store c =>
    simp only [MethodCache.step] at hs
    split at hs
    · next e r hphase =>
      obtain rfl := Option.some.inj hs
      have hruns := hinv.call c
      rw [CallOk, hphase] at hruns
      have hexecutes : (s.calls c).phase.executes = some e := by rw [hphase]; rfl
      rw [State.store]
      refine h.moves hinv (moves_setEntry hruns.1.executor hruns.1.result rfl rfl (by rw [hphase]; rfl))
        (fun e' he' heq hgave => .inl ?_) (fun e' heq => ?_) (fun e' joined c' heq hne => ?_)
      · obtain rfl := hinv.one_entry hexecutes he' heq
        rw [gaveUp_of_result (r := r) (by simp [State.setPhase, State.setEntry])] at hgave
        rw [gaveUp_of_storing e' hruns.1.result (by rw [hruns.1.executor]; exact hphase)]
        exact hgave
      · rw [setPhase_calls_self] at heq
        cases heq
      · rw [setPhase_calls_self] at heq
        cases heq
        exact absurd (hruns.2 c' rfl) hne
    · cases hs
  | receive c =>
    simp only [MethodCache.step] at hs
    split at hs
    · next e hphase =>
      obtain ⟨r, hr, rfl⟩ := Option.map_eq_some_iff.mp hs
      have hnone : (s.calls c).phase.executes = none := by rw [hphase]; rfl
      refine h.moves hinv (moves_setPhase (by rw [hnone]; rfl))
        (fun e' he' heq => absurd heq (hinv.no_entry hnone he')) (fun e' heq => ?_) (fun e' joined c' heq _ => ?_)
      · rw [setPhase_calls_self] at heq
        cases heq
      · rw [setPhase_calls_self] at heq
        cases heq
        refine h.waiting hphase ?_
        rw [gaveUp, outcome, hr]
        rfl
    · cases hs
  | abandon c =>
    simp only [MethodCache.step] at hs
    split at hs
    · next e hphase =>
      split at hs
      · next hcancelled =>
        obtain rfl := Option.some.inj hs
        have hnone : (s.calls c).phase.executes = none := by rw [hphase]; rfl
        refine h.moves hinv (moves_setPhase (by rw [hnone]; rfl))
          (fun e' he' heq => absurd heq (hinv.no_entry hnone he')) (fun e' heq => ?_) (fun _ _ _ _ _ => hcancelled)
        rw [setPhase_calls_self] at heq
        cases heq
      · cases hs
    · cases hs

/-! ## What the cache does -/

structure Correct (maxAge : ℕ) (s : State ν ε) : Prop where
  apart : ∀ e e', e < e' → e' < s.next → (s.entries e).created + maxAge ≤ (s.entries e').created
  /-- The handler is invoked once for an entry, and not at all before its call comes to it. -/
  once : ∀ e < s.next,
    (s.calls (s.entries e).executor).phase = .created e ∧ (s.entries e).invocations = 0 ∨
    (s.calls (s.entries e).executor).phase ≠ .created e ∧ (s.entries e).invocations = 1
  joined : ∀ c e r, (s.calls c).phase = .returned e true r →
    (s.entries e).result = some r ∨ r = .cancelled c ∧ (s.calls c).cancelled = true
  /-- When the handler has returned, its result is stored next, and then the entry is ready. -/
  ready : ∀ e < s.next, (∀ r, (s.calls (s.entries e).executor).phase = .storing e r →
      ∃ s', step maxAge s (.store (s.entries e).executor) = some s' ∧ (s'.entries e).result = some r) ∧
    ∀ r, (s.calls (s.entries e).executor).phase = .returned e false r → (s.entries e).result = some r
  own : ∀ c e joined c', (s.calls c).phase = .returned e joined (.cancelled c') → c' ≠ c →
    (s.calls c).cancelled = true

theorem Inv.correct (h : Inv maxAge s) (hc : Clean s) : Correct maxAge s where
  apart := h.apart
  once e he := by
    have hok := h.call (s.entries e).executor
    have hexecutes := (h.executor e he).2
    rw [CallOk] at hok
    split at hok <;> simp only [*, Phase.executes, Option.some.injEq, reduceCtorEq] at hexecutes <;> subst hexecutes
    · next hphase => exact .inl ⟨hphase, hok.invocations⟩
    · next hphase => exact .inr ⟨by rw [hphase]; simp, hok.invocations⟩
    · next hphase => exact .inr ⟨by rw [hphase]; simp, hok.1.invocations⟩
    · next hphase => exact .inr ⟨by rw [hphase]; simp, hok.1.invocations⟩
  joined c e r hphase := by
    have hok := h.call c
    rw [CallOk, hphase] at hok
    exact hok.2
  ready e he := by
    refine ⟨fun r hphase => ⟨s.store (s.entries e).executor e r, ?_, ?_⟩, fun r hphase => ?_⟩
    · rw [MethodCache.step, hphase]
    · simp [State.store, State.setPhase, State.setEntry]
    · have hok := h.call (s.entries e).executor
      rw [CallOk, hphase] at hok
      exact hok.1.result
  own c e joined c' hphase hne := hc.returned hphase hne

end

/-- In every run in which nobody whose own context is not done waits at an entry whose handler gives
up, or comes to it within its age, the cache is a correct single-flight cache. -/
theorem cache_single_flight (maxAge : ℕ) {s : State ν ε} (h : (machine maxAge).Reach (orderly maxAge) s) :
    Correct maxAge s := by
  have hkept : Inv maxAge s ∧ Clean s := by
    refine h.invariant (fun s => Inv maxAge s ∧ Clean s) ⟨⟨?_, fun _ => rfl, ?_, ?_, ?_, fun c => trivial⟩, ?_, ?_⟩
      fun s a s' hs hok hstep => ⟨hs.1.step hstep, hs.2.step hs.1 hok hstep⟩
    · intro e he
      cases he
    · intro e he
      exact absurd he (Nat.not_lt_zero e)
    · intro e e' _ he
      exact absurd he (Nat.not_lt_zero e')
    · intro e he
      exact absurd he (Nat.not_lt_zero e)
    · intro c e hphase
      cases hphase
    · intro c e joined c' hphase
      cases hphase
  exact hkept.1.correct hkept.2

/-- Two calls share one result. -/
def shared : List (Action ℕ ℕ) :=
  [.arrive, .lookup 0, .invoke 0, .arrive, .lookup 1, .finish 0 (.value 7), .store 0, .receive 1]

theorem cache_single_flight_shared : ∃ s : State ℕ ℕ, (machine 60).Reach (orderly 60) s ∧
    (s.calls 1).phase = .returned 0 true (.value 7) ∧ Correct 60 s := by
  obtain ⟨s, hreach, hs⟩ := Machine.exists_of_exec (machine 60) (orderly 60) (init : State ℕ ℕ) shared
    (fun s => decide ((s.calls 1).phase = .returned 0 true (.value 7))) (by decide +kernel)
  exact ⟨s, hreach, of_decide_eq_true hs, cache_single_flight 60 hreach⟩

/-- The call that runs the handler is cancelled, and the other one is told so. -/
def cancelledForAll : List (Action ℕ ℕ) :=
  [.arrive, .lookup 0, .invoke 0, .arrive, .lookup 1, .cancel 0, .finish 0 .cancelled, .store 0, .receive 1]

theorem cancelled_for_all : ∃ s : State ℕ ℕ, (machine 60).Reach anyStep s ∧ ¬ Correct 60 s := by
  obtain ⟨s, hreach, hs⟩ := Machine.exists_of_exec (machine 60) anyStep (init : State ℕ ℕ) cancelledForAll
    (fun s => decide ((s.calls 1).phase = .returned 0 true (.cancelled 0) ∧ (s.calls 1).cancelled = false))
    (by decide +kernel)
  obtain ⟨hphase, hcancelled⟩ := of_decide_eq_true hs
  refine ⟨s, hreach, fun hcorrect => ?_⟩
  have hown := hcorrect.own 1 0 true 0 hphase (by decide)
  rw [hcancelled] at hown
  cases hown

end TypeFerry.Go.MethodCache
